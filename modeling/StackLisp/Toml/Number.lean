import StackLisp.Number.Literal
import StackLisp.Toml

/-! Numbers and times of configuration text. -/
namespace StackLisp.Toml

def isDigitChar (c : Char) : Bool := '0' ≤ c && c ≤ '9'

def hexDigitValue? (c : Char) : Option Nat :=
  if isDigitChar c then some (c.toNat - 48)
  else if 'a' ≤ c && c ≤ 'f' then some (c.toNat - 87)
  else if 'A' ≤ c && c ≤ 'F' then some (c.toNat - 55)
  else none

def isHexChar (c : Char) : Bool := (hexDigitValue? c).isSome

/-- Every underscore stands behind a digit, and the text ends in one. -/
def underscoresFrom (afterDigit : Bool) : List Char → Bool
  | [] => afterDigit
  | c :: rest =>
    if c = '_' ∧ !afterDigit then false else underscoresFrom (isHexChar c) rest

def underscoresOk (text : List Char) : Bool :=
  text ∈ ["nan", "+nan", "-nan", "inf", "+inf", "-inf"].map String.toList
    || underscoresFrom false text

def hasLeadingZero : List Char → Bool
  | '0' :: c :: _ => !(c == 'b' || c == 'o' || c == 'x')
  | '+' :: '0' :: _ :: _ => true
  | '-' :: '0' :: _ :: _ => true
  | _ => false

def digitsIn (base : Nat) (text : List Char) : Option Nat :=
  (text.filter (· ≠ '_')).foldlM
    (fun n c => (hexDigitValue? c).bind fun d => if d < base then some (base * n + d) else none) 0

/-- The integer, which must fit in 64 bits. -/
def integer? (text : List Char) : Option Int := do
  if !underscoresOk text || hasLeadingZero text then none
  else
    let n ← match text with
      | '0' :: 'x' :: rest => (digitsIn 16 rest).map Int.ofNat
      | '0' :: 'o' :: rest => (digitsIn 8 rest).map Int.ofNat
      | '0' :: 'b' :: rest => (digitsIn 2 rest).map Int.ofNat
      | '+' :: rest => (digitsIn 10 rest).map Int.ofNat
      | '-' :: rest => (digitsIn 10 rest).map fun n => -Int.ofNat n
      | rest => (digitsIn 10 rest).map Int.ofNat
    if StackLisp.Number.minInt ≤ n ∧ n ≤ StackLisp.Number.maxInt then some n else none

/-- A period is followed by a digit. -/
def periodsOk : List Char → Bool
  | [] => true
  | '.' :: c :: rest => isDigitChar c && periodsOk (c :: rest)
  | ['.'] => false
  | _ :: rest => periodsOk rest

def isMark (c : Char) : Bool := c == '.' || c == 'e' || c == 'E'

/-- The parts of a number between periods and exponent marks, without the empty ones. -/
def numberParts (text : List Char) : List (List Char) :=
  (text.splitBy fun a b => !(isMark a || isMark b)).filter fun part => !part.any isMark

def float? (text : List Char) : Option Double :=
  let parts := numberParts text
  if !parts.all underscoresOk || parts.head?.any hasLeadingZero || !periodsOk text then none
  else
    let plain := text.filter (· ≠ '_')
    let plain := if plain = "+nan".toList ∨ plain = "-nan".toList then "nan".toList else plain
    match StackLisp.Number.readFloat (Text.encode plain) with
    | .ok x => some x
    | .error _ => none

/-- A number of exactly the given digits. -/
def fixedDigits? (n : Nat) (text : List Char) : Option (Nat × List Char) :=
  let ds := text.take n
  if ds.length = n ∧ ds.all isDigitChar then some (Text.digitsValue (Text.encode ds), text.drop n)
  else none

def afterChar? (c : Char) : List Char → Option (List Char)
  | d :: rest => if c = d then some rest else none
  | [] => none

def daysIn (year month : Nat) : Nat :=
  match month with
  | 4 | 6 | 9 | 11 => 30
  | 2 => if year % 4 = 0 ∧ (year % 100 ≠ 0 ∨ year % 400 = 0) then 29 else 28
  | _ => 31

/-- Reads a calendar date. -/
def afterDate? (text : List Char) : Option (List Char) := do
  let (year, text) ← fixedDigits? 4 text
  let text ← afterChar? '-' text
  let (month, text) ← fixedDigits? 2 text
  let text ← afterChar? '-' text
  let (day, text) ← fixedDigits? 2 text
  if 1 ≤ month ∧ month ≤ 12 ∧ 1 ≤ day ∧ day ≤ daysIn year month then some text else none

/-- The text behind a fraction of a second, if there is one. -/
def afterFraction : List Char → List Char
  | '.' :: c :: rest => if isDigitChar c then rest.dropWhile isDigitChar else '.' :: c :: rest
  | text => text

def afterSeconds? (text : List Char) : Option (List Char) := do
  let text ← afterChar? ':' text
  let (second, text) ← fixedDigits? 2 text
  if second < 60 then some (afterFraction text) else none

/-- Reads a time of day; seconds may be left out. -/
def afterTime? (text : List Char) : Option (List Char) := do
  let (hour, text) ← fixedDigits? 2 text
  let text ← afterChar? ':' text
  let (minute, text) ← fixedDigits? 2 text
  if hour < 24 ∧ minute < 60 then some ((afterSeconds? text).getD text) else none

/-- Reads an offset from universal time. -/
def afterOffset? : List Char → Option (List Char)
  | 'Z' :: rest => some rest
  | sign :: rest =>
    if sign = '+' ∨ sign = '-' then do
      let (hour, text) ← fixedDigits? 2 rest
      let text ← afterChar? ':' text
      let (minute, text) ← fixedDigits? 2 text
      if hour ≤ 24 ∧ minute ≤ 60 then some text else none
    else none
  | [] => none

/-- A date, a time, or both with or without an offset. -/
def isDatetime (text : List Char) : Bool :=
  let text := text.map fun c => if c = 'z' then 'Z' else if c = 't' ∨ c = ' ' then 'T' else c
  match afterDate? text with
  | some [] => true
  | some rest =>
    match (afterChar? 'T' rest).bind afterTime? with
    | some [] => true
    | some rest => afterOffset? rest == some []
    | none => false
  | none => afterTime? text == some []

end StackLisp.Toml
