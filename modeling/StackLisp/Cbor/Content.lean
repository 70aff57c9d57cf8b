import StackLisp.Cbor.Read
import StackLisp.Text.Utf8

/-! The content of binary data items as numbers, texts, lists and records. A null leaves the default
of what is read. -/
namespace StackLisp.Cbor

def isNull : Cbor → Bool
  | simple n => n == 22 || n == 23
  | _ => false

/-- Tags for times need a text or a number, and those for large numbers a byte string. -/
def fitsTag (number : Nat) (content : Cbor) : Bool :=
  match number, content with
  | 0, text _ => true
  | 0, _ => false
  | 1, unsigned _ | 1, negative _ | 1, float _ _ => true
  | 1, _ => false
  | 2, bytes _ | 3, bytes _ => true
  | 2, _ | 3, _ => false
  | _, _ => true

/-- The item without the tags that do not change what it is. -/
def untagged : Cbor → Option Cbor
  | tag n content =>
    if !fitsTag n content then none
    else if n = 2 ∨ n = 3 then some (tag n content)
    else untagged content
  | i => some i

/-- The integer an item stands for, if it is between the bounds. -/
def toInt? (least most : Int) (item : Cbor) : Option Int := do
  let n ← match ← untagged item with
    | unsigned n => some (n : Int)
    | negative n => some (-1 - n)
    | tag 2 (bytes b) => some (ofBigEndian b : Int)
    | tag 3 (bytes b) => some (-1 - ofBigEndian b)
    | simple n =>
      if n = 22 ∨ n = 23 then some 0 else if n = 20 ∨ n = 21 then none else some (n : Int)
    | _ => none
  if least ≤ n ∧ n ≤ most then some n else none

def toByte? (item : Cbor) : Option UInt8 := (toInt? 0 255 item).map fun n => n.toNat.toUInt8

def toInt64? (item : Cbor) : Option Int :=
  toInt? (-0x8000000000000000) 0x7fffffffffffffff item

/-- The text of an item; every piece must be valid by itself. -/
def toText? (item : Cbor) : Option Bytes := do
  match ← untagged item with
  | text pieces => if pieces.all Text.isValid then some pieces.flatten else none
  | i => if i.isNull then some [] else none

/-- The bytes of an item; there are none when it is null. -/
def toBytes? (item : Cbor) : Option (Option Bytes) := do
  match ← untagged item with
  | bytes b | tag 2 (bytes b) | tag 3 (bytes b) => some (some b)
  | array items => (items.mapM toByte?).map some
  | i => if i.isNull then some none else none

def toList? {α : Type} (read : Cbor → Option α) (item : Cbor) : Option (List α) := do
  match ← untagged item with
  | array items => items.mapM read
  | i => if i.isNull then some [] else none

/-- The key of a field: a number modulo the size of a word, or a text. -/
inductive Key where
  | number (n : Int)
  | name (t : Bytes)
deriving DecidableEq, Repr

def toKey? : Cbor → Option Key
  | unsigned n => some (.number (Int.bmod n 0x10000000000000000))
  | negative n => some (.number (Int.bmod (-1 - n) 0x10000000000000000))
  | text pieces => if pieces.all Text.isValid then some (.name pieces.flatten) else none
  | _ => none

/-- The fields of a record. -/
abbrev Fields := List (Key × Cbor)

def toFields? (item : Cbor) : Option Fields := do
  match ← untagged item with
  | map pairs => pairs.mapM fun (k, v) => (toKey? k).map fun key => (key, v)
  | i => if i.isNull then some [] else none

/-- A field is found by its number or by the text of its number; the first one counts. -/
def Fields.find? (fs : Fields) (n : Nat) : Option Cbor :=
  (List.find? (fun (k, _) => k = .number n ∨ k = .name (Text.decimal n)) fs).map Prod.snd

/-- Reads a field; one that is missing has the default. -/
def Fields.get? {α : Type} (fs : Fields) (n : Nat) (default : α) (read : Cbor → Option α) :
    Option α :=
  match fs.find? n with
  | none => some default
  | some item => read item

end StackLisp.Cbor
