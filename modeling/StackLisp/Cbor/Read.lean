import StackLisp.Cbor

/-! Reading of binary data items. -/
namespace StackLisp.Cbor

/-- The argument of a first byte. -/
inductive Argument where
  | value (n : Nat)
  | indefinite
deriving DecidableEq, Repr

/-- Items may nest this deep. -/
def deepest : Nat := 32

/-- Arrays may have this many items, and maps this many pairs. -/
def longest : Nat := 131072

def ofBigEndian (bs : Bytes) : Nat := bs.foldl (fun n b => 256 * n + b.toNat) 0

/-- Splits off the given number of bytes. -/
def take? (n : Nat) (data : Bytes) : Option (Bytes × Bytes) :=
  if n ≤ data.length then some (data.splitAt n) else none

/-- The major type, the low bits of the first byte and the argument of an item. -/
def readHead : Bytes → Option (Nat × Nat × Argument × Bytes)
  | [] => none
  | b :: rest =>
    let major := b.toNat / 32
    let low := b.toNat % 32
    if low < 24 then some (major, low, .value low, rest)
    else if low = 31 then some (major, low, .indefinite, rest)
    else if low ≥ 28 then none
    else do
      let (argument, rest) ← take? (Nat.pow 2 (low - 24)) rest
      some (major, low, .value (ofBigEndian argument), rest)

/-- The pieces of a string of unknown length up to the break; each is a string of known length of
the same type. -/
def readPieces (major : Nat) : Nat → Bytes → Option (List Bytes × Bytes)
  | 0, _ => none
  | fuel + 1, data =>
    match data with
    | 0xff :: rest => some ([], rest)
    | _ => do
      let (m, _, argument, rest) ← readHead data
      let .value n := argument | none
      if m ≠ major then none
      else
        let (piece, rest) ← take? n rest
        let (pieces, rest) ← readPieces major fuel rest
        some (piece :: pieces, rest)

/-- A string: one piece if its length is known. -/
def readString (major fuel : Nat) (argument : Argument) (data : Bytes) :
    Option (List Bytes × Bytes) :=
  match argument with
  | .value n => (take? n data).map fun (piece, rest) => ([piece], rest)
  | .indefinite => readPieces major fuel data

def pairUp : List Cbor → Option (List (Cbor × Cbor))
  | [] => some []
  | k :: v :: rest => (pairUp rest).map ((k, v) :: ·)
  | [_] => none

/-- Simple values and floats. A simple value below 32 must be in the first byte. -/
def readSimple (low : Nat) : Argument → Option Cbor
  | .indefinite => none
  | .value n =>
    if low < 24 then some (simple n)
    else if low = 24 then if n < 32 then none else some (simple n)
    else some (float (Nat.pow 2 (low - 24)) n)

/-- The level of what follows a tag: only tags inside tags count as nesting. -/
def tagLevel (depth : Nat) : Bytes → Nat
  | b :: _ => if b.toNat / 32 = 6 then depth + 1 else depth
  | [] => depth

mutual
/-- Reads one item at a nesting level. -/
def readItem : Nat → Nat → Bytes → Option (Cbor × Bytes)
  | 0, _, _ => none
  | fuel + 1, depth, data =>
    match readHead data with
    | none => none
    | some (major, low, argument, rest) =>
      match major, argument with
      | 0, .value n => some (unsigned n, rest)
      | 1, .value n => some (negative n, rest)
      | 2, _ => (readString 2 fuel argument rest).map fun (ps, rest) => (bytes ps.flatten, rest)
      | 3, _ => (readString 3 fuel argument rest).map fun (ps, rest) => (text ps, rest)
      | 4, .value n =>
        if depth + 1 > deepest ∨ n > longest then none
        else (readItems fuel (depth + 1) n rest).map fun (is, rest) => (array is, rest)
      | 4, .indefinite =>
        if depth + 1 > deepest then none
        else match readUntilBreak fuel (depth + 1) rest with
          | none => none
          | some (is, rest) => if is.length > longest then none else some (array is, rest)
      | 5, .value n =>
        if depth + 1 > deepest ∨ n > longest then none
        else match readItems fuel (depth + 1) (2 * n) rest with
          | none => none
          | some (is, rest) => (pairUp is).map fun ps => (map ps, rest)
      | 5, .indefinite =>
        if depth + 1 > deepest then none
        else match readUntilBreak fuel (depth + 1) rest with
          | none => none
          | some (is, rest) =>
            if is.length > 2 * longest + 1 then none
            else (pairUp is).map fun ps => (map ps, rest)
      | 6, .value n =>
        let level := tagLevel depth rest
        if level > deepest then none
        else (readItem fuel level rest).map fun (content, rest) => (tag n content, rest)
      | 7, argument => (readSimple low argument).map fun i => (i, rest)
      | _, _ => none

/-- Reads the given number of items. -/
def readItems : Nat → Nat → Nat → Bytes → Option (List Cbor × Bytes)
  | 0, _, _, _ => none
  | _ + 1, _, 0, data => some ([], data)
  | fuel + 1, depth, n + 1, data =>
    match readItem fuel depth data with
    | none => none
    | some (i, rest) => (readItems fuel depth n rest).map fun (is, rest) => (i :: is, rest)

/-- Reads items up to the break. -/
def readUntilBreak : Nat → Nat → Bytes → Option (List Cbor × Bytes)
  | 0, _, _ => none
  | fuel + 1, depth, data =>
    match data with
    | 0xff :: rest => some ([], rest)
    | _ =>
      match readItem fuel depth data with
      | none => none
      | some (i, rest) => (readUntilBreak fuel depth rest).map fun (is, rest) => (i :: is, rest)
end

/-- Reads data that is exactly one item. Each step of the reader takes at least a byte or is
followed by one that does, which bounds the number of steps. -/
def read (data : Bytes) : Option Cbor :=
  match readItem (2 * data.length + 2) 0 data with
  | some (i, []) => some i
  | _ => none

end StackLisp.Cbor
