import StackLisp.Text.Bytes

/-! Codes of diagnostics. The second character tells the stage that reported it. -/
namespace StackLisp

structure Code where
  text : Bytes
deriving DecidableEq, Repr, Inhabited

namespace Code

open Text (lit)

def unexpectedToken : Code := ⟨lit "E1001"⟩
def unterminatedString : Code := ⟨lit "E1002"⟩
def malformedForm : Code := ⟨lit "E1003"⟩
def unclosedDelimiter : Code := ⟨lit "E1007"⟩
def badNumber : Code := ⟨lit "E1008"⟩
def badEscape : Code := ⟨lit "E1010"⟩
def unboundName : Code := ⟨lit "E2001"⟩
def duplicateParameter : Code := ⟨lit "E2006"⟩
def tooManyLocals : Code := ⟨lit "E2007"⟩
def tooManyConstants : Code := ⟨lit "E2008"⟩
def forwardReference : Code := ⟨lit "E2012"⟩
def arityMismatch : Code := ⟨lit "E2013"⟩
def notConstant : Code := ⟨lit "E2014"⟩
def duplicateDefinition : Code := ⟨lit "E2015"⟩
def badTailPosition : Code := ⟨lit "E2016"⟩
def jumpOutOfRange : Code := ⟨lit "E2017"⟩
def misplacedDefinition : Code := ⟨lit "E2018"⟩
def tooManyArguments : Code := ⟨lit "E2019"⟩

def descriptions : List (Code × String) :=
  [(unexpectedToken, "unexpected token"),
    (unterminatedString, "unterminated string literal"),
    (malformedForm, "invalid syntax"),
    (unclosedDelimiter, "unclosed delimiter"),
    (badNumber, "invalid number literal"),
    (badEscape, "invalid escape sequence"),
    (unboundName, "unbound name"),
    (duplicateParameter, "duplicate parameter name"),
    (tooManyLocals, "too many local slots"),
    (tooManyConstants, "too many constants"),
    (forwardReference, "forward reference"),
    (arityMismatch, "arity mismatch"),
    (notConstant, "non-constant value in const expression"),
    (duplicateDefinition, "duplicate top-level name"),
    (badTailPosition, "invalid tail position"),
    (jumpOutOfRange, "jump target out of range"),
    (misplacedDefinition, "misplaced definition"),
    (tooManyArguments, "too many arguments")]

def description (c : Code) : Bytes :=
  match descriptions.find? fun (d, _) => d = c with
  | some (_, text) => lit text
  | none => lit "unknown error"

def category (c : Code) : Bytes :=
  match c.text with
  | _ :: 49 :: _ => lit "parse"
  | _ :: 50 :: _ => lit "compile"
  | _ => lit "unknown"

end Code
end StackLisp
