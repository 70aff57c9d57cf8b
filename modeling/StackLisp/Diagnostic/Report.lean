import StackLisp.Diagnostic.Code
import StackLisp.Diagnostic.Style
import StackLisp.Diagnostic.Suggestion

/-! Diagnostics and how they are shown, with the source line and carets under the fault. -/
namespace StackLisp

open Text (lit decimal decimalInt spaces)

/-- A fault found in a program. Lines and columns count from one. -/
structure Diagnostic where
  code : Code
  message : Bytes
  filename : Bytes := []
  line : Int := 0
  column : Int := 0
  endColumn : Int := 0
  sourceLine : Bytes := []
  suggestions : List Suggestion := []
  note : Bytes := []
deriving DecidableEq, Repr

/-- A line of the program shown in a report. -/
structure SourceLine where
  number : Int
  text : Bytes
  isMain : Bool
deriving DecidableEq, Repr

/-- What a report shows of a fault. -/
structure Report where
  code : Bytes := []
  kind : Bytes := []
  message : Bytes
  filename : Bytes := []
  line : Int := 0
  column : Int := 0
  endColumn : Int := 0
  lines : List SourceLine := []
  hint : Bytes := []
  note : Bytes := []
deriving DecidableEq, Repr

namespace Report

def lineColumn (line column : Int) : Bytes := decimalInt line ++ lit ":" ++ decimalInt column

def place (r : Report) : Bytes :=
  if r.filename ≠ [] then
    if r.line > 0 then r.filename ++ lit ":" ++ lineColumn r.line r.column else r.filename
  else if r.line > 0 then lineColumn r.line r.column
  else []

/-- The width of the margin that holds line numbers. -/
def margin (r : Report) : Nat := max 2 (decimalInt r.line).length

def alignRight (width : Nat) (text : Bytes) : Bytes := spaces (width - text.length) ++ text

/-- One caret, or a run from the first column through the one behind the fault. -/
def caretCount (r : Report) : Nat :=
  if r.endColumn > r.column then (r.endColumn - r.column + 1).toNat else 1

def caretLine (colored : Bool) (r : Report) : Bytes :=
  spaces r.margin ++ Style.gray.paint colored (lit " | ") ++ spaces (r.column - 1).toNat
    ++ Style.brightRed.paint colored (Text.repeated r.caretCount 94) ++ lit "\n"

def showLine (colored : Bool) (r : Report) (l : SourceLine) : Bytes :=
  Style.gray.paint colored (alignRight r.margin (decimalInt l.number) ++ lit " | ")
    ++ l.text ++ lit "\n"
    ++ if l.isMain ∧ r.column ≥ 1 then r.caretLine colored else []

def remark (colored : Bool) (r : Report) (style : Style) (label : String) (text : Bytes) : Bytes :=
  if text = [] then []
  else spaces r.margin ++ Style.gray.paint colored (lit " = ") ++ style.paint colored (lit label)
    ++ text ++ lit "\n"

/-- Shows the code in brackets, or the given mark when the fault has no code. -/
def bracket (colored : Bool) (r : Report) (mark : Bytes) : Bytes :=
  if r.code ≠ [] then Style.gray.paint colored (lit "[" ++ r.code ++ lit "]")
  else if mark ≠ [] then Style.gray.paint colored (lit "[" ++ mark ++ lit "]")
  else []

def render (colored : Bool) (mark : Bytes) (r : Report) : Bytes :=
  Style.brightRedBold.paint colored (if r.kind = [] then lit "error" else r.kind)
    ++ r.bracket colored mark
    ++ Style.red.paint colored (lit ": ") ++ r.message ++ lit "\n"
    ++ (if r.place = [] then [] else
      spaces r.margin ++ Style.cyan.paint colored (lit "-->") ++ lit " "
        ++ Style.cyan.paint colored r.place ++ lit "\n")
    ++ (if r.lines = [] then [] else
      spaces r.margin ++ Style.gray.paint colored (lit " |") ++ lit "\n"
        ++ r.lines.flatMap (r.showLine colored))
    ++ r.remark colored Style.brightYellow "hint: " r.hint
    ++ r.remark colored Style.brightBlue "note: " r.note

def numbered (colored : Bool) (total : Nat) : Nat → List Report → List Bytes
  | _, [] => []
  | i, r :: rest =>
    r.render colored (decimal i ++ lit "/" ++ decimal total) :: numbered colored total (i + 1) rest

/-- Several reports are numbered, set apart by empty lines and counted at the end. -/
def renderAll (colored : Bool) : List Report → Bytes
  | [] => []
  | [r] => r.render colored []
  | several =>
    let n := several.length
    Text.join (lit "\n") (numbered colored n 1 several) ++ lit "\n"
      ++ Style.brightRedBold.paint colored (lit "found " ++ decimal n ++ lit " errors") ++ lit "\n"

end Report

namespace Diagnostic

def report (d : Diagnostic) : Report where
  code := d.code.text
  kind := d.code.category ++ lit " error"
  message := d.message
  filename := d.filename
  line := d.line
  column := d.column
  endColumn := d.endColumn
  lines := if d.sourceLine = [] then [] else [⟨d.line, d.sourceLine, true⟩]
  hint := Suggestion.question d.suggestions
  note := d.note

/-- The report of a single fault, without colors. -/
def friendly (d : Diagnostic) : Bytes := d.report.render false []

/-- The plain text of a fault. -/
def text (d : Diagnostic) : Bytes :=
  d.code.category ++ lit " error: " ++ d.message
    ++ if d.filename ≠ [] ∨ d.line > 0 then
      lit "\n\nlocation: " ++ (if d.filename = [] then [] else d.filename ++ lit ":")
        ++ Report.lineColumn d.line d.column
        ++ lit " (line " ++ decimalInt d.line ++ lit ", column " ++ decimalInt d.column ++ lit ")"
    else []

/-- The place of a fault, with its file if it has one. -/
def place (d : Diagnostic) : Bytes :=
  (if d.filename = [] then [] else d.filename ++ lit ":") ++ Report.lineColumn d.line d.column

/-- The text of several faults: the first, and how many more there are. -/
def textAll : List Diagnostic → Bytes
  | [] => []
  | [d] => d.text
  | d :: rest => d.text ++ lit " (and " ++ decimal rest.length ++ lit " more errors)"

/-- The code of a single fault; several faults have none in common. -/
def codeOfAll : List Diagnostic → Bytes
  | [d] => d.code.text
  | _ => []

def friendlyAll (ds : List Diagnostic) : Bytes := Report.renderAll false (ds.map report)

end Diagnostic
end StackLisp
