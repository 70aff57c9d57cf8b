import StackLisp.Fault

/-! Tokens of program text. -/
namespace StackLisp

inductive TokenKind where
  | char
  | float
  | ident
  | int
  | opening
  | quote
  | closing
  | string
deriving DecidableEq, Repr

def TokenKind.label : TokenKind → Bytes
  | char => Text.lit "CHAR"
  | float => Text.lit "FLOAT"
  | ident => Text.lit "IDENT"
  | int => Text.lit "INT"
  | opening => Text.lit "("
  | quote => Text.lit "'"
  | closing => Text.lit ")"
  | string => Text.lit "STRING"

/-- Names and numbers keep their bytes; strings and characters hold what they stand for. -/
structure Token where
  kind : TokenKind
  literal : Bytes
  start : Position
  stop : Position
deriving DecidableEq, Repr

/-- A fault of the scanner, with the place where the offending token starts. -/
structure ScanFault where
  located : LocatedFault
  tokenStart : Position
deriving DecidableEq, Repr

def ScanFault.text (f : ScanFault) : Bytes :=
  f.located.fault.message ++ Text.lit " at "
    ++ Report.lineColumn f.located.start.lineNumber f.located.start.columnNumber

/-- How the tokens of a text end. -/
inductive Ending where
  | finished (place : Position)
  | failed (f : ScanFault)
deriving DecidableEq, Repr

/-- The tokens of a text up to its end or to the first fault. -/
structure Tokens where
  list : List Token
  ending : Ending
deriving DecidableEq, Repr

end StackLisp
