import StackLisp.Diagnostic.Report
import StackLisp.Position
import StackLisp.Text.Quoted

/-! Why a program text is refused, and where. -/
namespace StackLisp

open Text (lit decimal decimalInt quote)

/-- The operand counts a special form takes. -/
inductive OperandRange where
  | atLeast (least : Nat)
  | exactly (count : Nat)
  | between (least most : Nat)
deriving DecidableEq, Repr

namespace OperandRange

def accepts : OperandRange → Nat → Bool
  | atLeast least, n => least ≤ n
  | exactly count, n => n == count
  | between least most, n => least ≤ n && n ≤ most

def describe : OperandRange → Bytes
  | atLeast least => lit "at least " ++ decimal least
  | exactly count => decimal count
  | between least most => decimal least ++ lit " to " ++ decimal most

end OperandRange

inductive Fault where
  | unterminatedString
  | unknownEscape (c : Char)
  | strayHash
  | incompleteCharacter
  | unknownCharacter (name : Bytes)
  | unexpectedClose
  | quoteUnsupported
  | unexpectedEnd
  | tooDeep (limit : Int)
  | unclosed
  | malformedNumber (text : Bytes)
  | numberOutOfRange (text : Bytes)
  | keywordAsValue (keyword : Bytes)
  | keywordAs (keyword : Bytes) (role : String)
  | expected (role : String) (found : Bytes)
  | wrongOperands (keyword : Bytes) (range : OperandRange) (found : Nat)
  | namelessFunction
  | malformedBinding
deriving DecidableEq, Repr

namespace Fault

def code : Fault → Code
  | unterminatedString => .unterminatedString
  | unknownEscape _ => .badEscape
  | strayHash | unexpectedClose | unexpectedEnd | expected _ _ => .unexpectedToken
  | unclosed => .unclosedDelimiter
  | malformedNumber _ | numberOutOfRange _ => .badNumber
  | incompleteCharacter | unknownCharacter _ | quoteUnsupported | tooDeep _ | keywordAsValue _
  | keywordAs _ _ | wrongOperands _ _ _ | namelessFunction | malformedBinding => .malformedForm

def message : Fault → Bytes
  | unterminatedString => lit "unterminated string literal"
  | unknownEscape c => lit "invalid escape sequence \\" ++ Text.encodeChar c
  | strayHash => lit "unexpected character after #"
  | incompleteCharacter => lit "incomplete character literal"
  | unknownCharacter name => lit "unknown character name " ++ quote name
  | unexpectedClose => lit "unexpected )"
  | quoteUnsupported => lit "quoted expressions are not supported"
  | unexpectedEnd => lit "unexpected end of file"
  | tooDeep limit => lit "maximum nesting depth of " ++ decimalInt limit ++ lit " exceeded"
  | unclosed => lit "unclosed ("
  | malformedNumber text => lit "invalid number literal " ++ quote text
  | numberOutOfRange text => lit "number literal " ++ quote text ++ lit " is out of range"
  | keywordAsValue keyword => keyword ++ lit " cannot be used as a value"
  | keywordAs keyword role => keyword ++ lit " cannot be used as " ++ lit role
  | expected role found => lit "expected " ++ lit role ++ lit ", found " ++ found
  | wrongOperands keyword range found =>
    keyword ++ lit " expects " ++ range.describe ++ lit " operands, found " ++ decimal found
  | namelessFunction => lit "define expects a function name"
  | malformedBinding => lit "let binding must have the form (name value)"

end Fault

/-- A fault with the text it concerns. -/
structure LocatedFault where
  fault : Fault
  start : Position
  stop : Position
deriving DecidableEq, Repr

namespace LocatedFault

/-- The end column is set only when the fault ends on the line where it starts, behind its start. -/
def diagnostic (source filename : Bytes) (f : LocatedFault) : Diagnostic where
  code := f.fault.code
  message := f.fault.message
  filename := filename
  line := f.start.lineNumber
  column := f.start.columnNumber
  endColumn :=
    if f.stop.line = f.start.line ∧ f.stop.column > f.start.column then f.stop.columnNumber else 0
  sourceLine := Text.lineAt f.start.line.toNat source

end LocatedFault
end StackLisp
