import StackLisp.Text.LowerCase
import StackLisp.Text.Utf8

/-! Names similar to a misspelled one, by edit distance. -/
namespace StackLisp

structure Suggestion where
  value : Bytes
  distance : Nat
deriving DecidableEq, Repr

namespace Suggestion

/-- One row of the distance table from the row above it. `corner` is the entry above and to the
left, `left` the entry of the new row written last. -/
def nextRow (c : Char) : List Char → List Nat → Nat → Nat → List Nat
  | a :: as, above :: row, corner, left =>
    let cost := if a = c then 0 else 1
    let entry := min (min (above + 1) (left + 1)) (corner + cost)
    entry :: nextRow c as row above entry
  | _, _, _, _ => []

/-- Rows of the table of distances from the prefixes of `as` to the prefixes of the other text. -/
def rowAfter (as : List Char) : List Nat → List Char → List Nat
  | row, [] => row
  | row, c :: cs =>
    match row with
    | corner :: rest => rowAfter as ((corner + 1) :: nextRow c as rest corner (corner + 1)) cs
    | [] => []

/-- The least number of insertions, deletions and substitutions of single characters that turn
one list into the other, found row by row along the shorter one. -/
def editDistance (as bs : List Char) : Nat :=
  let (short, long) := if as.length > bs.length then (bs, as) else (as, bs)
  (rowAfter short (List.range (short.length + 1)) long).getLastD 0

/-- Short names tolerate fewer edits. -/
def threshold (size : Nat) : Nat := if size ≤ 3 then 1 else if size ≤ 5 then 2 else 3

def lowerCase (text : Bytes) : List Char := (Text.chars text).map Text.toLower

/-- The order of suggestions: nearer first, then by bytes. -/
def le (a b : Suggestion) : Bool :=
  a.distance < b.distance || (a.distance == b.distance && decide (a.value ≤ b.value))

/-- A candidate that is not the target itself and is close enough to it. -/
def consider (target : List Char) (limit : Nat) (candidate : Bytes) : Option Suggestion :=
  let lower := lowerCase candidate
  if candidate = [] ∨ lower = target then none
  else
    let d := editDistance target lower
    if d ≤ limit then some ⟨candidate, d⟩ else none

/-- Keeps one of neighbours with the same value. -/
def dropRepeated : List Suggestion → List Suggestion
  | a :: b :: rest =>
    if a.value = b.value then dropRepeated (b :: rest) else a :: dropRepeated (b :: rest)
  | short => short

/-- At most this many suggestions are made. -/
def most : Nat := 3

/-- The candidates nearest to the target, ignoring case. -/
def similar (target : Bytes) (candidates : List Bytes) : List Suggestion :=
  if target = [] then []
  else
    let lower := lowerCase target
    let limit := threshold (Text.encode lower).length
    let near := candidates.filterMap (consider lower limit)
    (dropRepeated (near.mergeSort le)).take most

/-- The suggestions as a question; nothing when there are none. -/
def question : List Suggestion → Bytes
  | [] => []
  | [s] => Text.lit "did you mean '" ++ s.value ++ Text.lit "'?"
  | several =>
    Text.lit "did you mean one of: "
      ++ Text.join (Text.lit ", ") (several.map fun s => Text.lit "'" ++ s.value ++ Text.lit "'")
      ++ Text.lit "?"

end Suggestion
end StackLisp
