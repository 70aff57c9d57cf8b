import StackLisp.Text.Bytes

/-! Lists of texts with commas between them. A text with a comma, a quote or the end of a line in it
is written in quotes, where a quote is written twice. -/
namespace StackLisp.Csv

open Text (lit decimal)

inductive Cause where
  | bareQuote
  | badQuote
deriving DecidableEq, Repr

/-- Why a text is not a list. Lines and columns count from one, columns in bytes. -/
inductive Fault where
  | empty
  | misplaced (cause : Cause) (start line column : Nat)
deriving DecidableEq, Repr

def Cause.message : Cause → Bytes
  | bareQuote => lit "bare \" in non-quoted field"
  | badQuote => lit "extraneous or missing \" in quoted-field"

def Fault.message : Fault → Bytes
  | empty => lit "EOF"
  | misplaced cause start line column =>
    (if start = line then [] else lit "record on line " ++ decimal start ++ lit "; ")
      ++ lit "parse error on line " ++ decimal line ++ lit ", column " ++ decimal column
      ++ lit ": " ++ cause.message

/-- Ends lines with a newline alone. -/
def unixLines : Bytes → Bytes
  | 13 :: 10 :: rest => 10 :: unixLines rest
  | [13] => []
  | b :: rest => b :: unixLines rest
  | [] => []

/-- Where in a field reading is: at its start, in a plain text, in a quoted text, or behind a quote
in a quoted text. -/
inductive State where
  | start
  | plain
  | quoted
  | closing
deriving DecidableEq, Repr

/-- Reads the fields up to the end of the line that is not quoted. `first` is the line the list
starts on, and `field` what was read of a field. -/
def fields (first : Nat) : State → Nat → Nat → Bytes → Bytes → Except Fault (List Bytes)
  | .quoted, line, column, _, [] => .error (.misplaced .badQuote first line column)
  | _, _, _, field, [] => .ok [field]
  | .quoted, line, column, field, b :: rest =>
    if b = 34 then fields first .closing line (column + 1) field rest
    else if b = 10 ∧ rest ≠ [] then fields first .quoted (line + 1) 1 (field ++ [b]) rest
    else fields first .quoted line (column + 1) (field ++ [b]) rest
  | s, line, column, field, b :: rest =>
    if b = 44 then (fields first .start line (column + 1) [] rest).map (field :: ·)
    else if b = 10 then .ok [field]
    else match s with
      | .start =>
        if b = 34 then fields first .quoted line (column + 1) [] rest
        else fields first .plain line (column + 1) [b] rest
      | .closing =>
        if b = 34 then fields first .quoted line (column + 1) (field ++ [b]) rest
        else .error (.misplaced .badQuote first line (column - 1))
      | _ =>
        if b = 34 then .error (.misplaced .bareQuote first line column)
        else fields first .plain line (column + 1) (field ++ [b]) rest

/-- Reads the first list of a text, passing over empty lines. Nothing is the empty list. -/
def read (text : Bytes) : Except Fault (List Bytes) :=
  if text = [] then .ok []
  else
    let lines := unixLines text
    let blank := (lines.takeWhile (· = 10)).length
    match lines.drop blank with
    | [] => .error .empty
    | rest => fields (blank + 1) .start (blank + 1) 1 [] rest

end StackLisp.Csv
