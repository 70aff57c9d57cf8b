import StackLisp.Diagnostic.Report
import StackLisp.Resolution
import StackLisp.Position

/-! Why a form cannot be compiled. -/
namespace StackLisp

open Text (lit decimal decimalInt quote)

namespace Limit

/-- Entries of a constant pool. -/
def constants : Nat := 256

/-- Slots of a function. -/
def slots : Nat := 256

/-- Arguments of a call, and parameters of a function. -/
def arguments : Nat := 255

/-- Values a closure captures. -/
def captures : Nat := 255

/-- The largest offset a jump leads to. -/
def target : Nat := 255

end Limit

namespace Owner

def render : Owner → Bytes
  | named name => lit "function " ++ quote name
  | form => lit "top-level form"
  | anonymous => lit "anonymous function"

end Owner

inductive Refusal where
  | alreadyDefined (name : Bytes)
  | notConstant (name : Bytes) (value : Bytes)
  | misplacedDefine (name : Bytes)
  | misplacedConst (name : Bytes)
  | unbound (name : Bytes) (candidates : List Bytes)
  | forwardReference (name : Bytes)
  | duplicateParameter (name : Bytes)
  | tooManyConstants (owner : Owner)
  | tooManySlots (owner : Owner)
  | tooManyCaptures (count : Nat)
  | tooManyLocals (count : Nat)
  | tooManyParameters (count : Nat)
  | tooManyArguments (count : Nat)
  | tooManyLeading (count : Nat)
  | jumpTooFar (target : Nat) (owner : Owner)
  | functionArity (name : Bytes) (wanted : Int) (given : Nat)
  | builtinArity (name : Bytes) (wanted : Arity) (given : Nat)
  | leadingArity (name : Bytes) (wanted given : Nat)
  | applyWithoutList
deriving DecidableEq, Repr

namespace Refusal

def code : Refusal → Code
  | alreadyDefined _ => .duplicateDefinition
  | notConstant _ _ => .notConstant
  | misplacedDefine _ | misplacedConst _ => .misplacedDefinition
  | unbound _ _ => .unboundName
  | forwardReference _ => .forwardReference
  | duplicateParameter _ => .duplicateParameter
  | tooManyConstants _ => .tooManyConstants
  | tooManySlots _ | tooManyCaptures _ | tooManyLocals _ => .tooManyLocals
  | tooManyParameters _ | tooManyArguments _ | tooManyLeading _ => .tooManyArguments
  | jumpTooFar _ _ => .jumpOutOfRange
  | functionArity _ _ _ | builtinArity _ _ _ | leadingArity _ _ _ | applyWithoutList =>
    .arityMismatch

def limit (n : Nat) : Bytes := lit " (limit " ++ decimal n ++ lit ")"

def message : Refusal → Bytes
  | alreadyDefined name => quote name ++ lit " is already defined"
  | notConstant name value =>
    lit "value of const " ++ quote name ++ lit " is not a constant expression: " ++ value
  | misplacedDefine name => lit "define of " ++ quote name ++ lit " is only allowed at top level"
  | misplacedConst name => lit "const " ++ quote name ++ lit " is only allowed at top level"
  | unbound name _ => lit "unbound name " ++ quote name
  | forwardReference name => quote name ++ lit " is referenced before its definition"
  | duplicateParameter name => lit "duplicate parameter " ++ quote name
  | tooManyConstants owner =>
    lit "too many constants in " ++ owner.render ++ limit Limit.constants
  | tooManySlots owner => lit "too many local slots in " ++ owner.render ++ limit Limit.slots
  | tooManyCaptures n =>
    lit "function captures " ++ decimal n ++ lit " locals" ++ limit Limit.captures
  | tooManyLocals n => lit "function needs " ++ decimal n ++ lit " local slots" ++ limit Limit.slots
  | tooManyParameters n =>
    lit "function has " ++ decimal n ++ lit " parameters" ++ limit Limit.arguments
  | tooManyArguments n => lit "call has " ++ decimal n ++ lit " arguments" ++ limit Limit.arguments
  | tooManyLeading n =>
    lit "apply has " ++ decimal n ++ lit " leading arguments" ++ limit Limit.arguments
  | jumpTooFar target owner =>
    lit "jump target " ++ decimal target ++ lit " in " ++ owner.render ++ lit " is beyond offset "
      ++ decimal Limit.target
  | functionArity name wanted given =>
    lit "function " ++ quote name ++ lit " takes " ++ decimalInt wanted
      ++ lit " arguments, called with " ++ decimal given
  | builtinArity name wanted given =>
    lit "builtin " ++ quote name ++ lit " takes " ++ wanted.render
      ++ lit " arguments, called with " ++ decimal given
  | leadingArity name wanted given =>
    lit "function " ++ quote name ++ lit " takes " ++ decimal wanted
      ++ lit " arguments, applied with " ++ decimal given ++ lit " leading arguments"
  | applyWithoutList => lit "apply requires an argument list"

/-- An unbound name may be a misspelling of a name in sight. -/
def suggestions : Refusal → List Suggestion
  | unbound name candidates => Suggestion.similar name candidates
  | _ => []

end Refusal

/-- A refusal and the place it concerns. -/
structure LocatedRefusal where
  refusal : Refusal
  pos : Position
deriving DecidableEq, Repr

/-- A line of the source, counted from zero; empty when the source is not known or has no such
line. -/
def CompileOptions.sourceLine (options : CompileOptions) (line : Int) : Bytes :=
  if options.source = [] ∨ line < 0 then []
  else (Text.split Text.newline options.source)[line.toNat]?.getD []

/-- The file named in the options counts before that of the place. -/
def LocatedRefusal.diagnostic (options : CompileOptions) (r : LocatedRefusal) : Diagnostic where
  code := r.refusal.code
  message := r.refusal.message
  filename := if options.filename = [] then r.pos.file else options.filename
  line := r.pos.lineNumber
  column := r.pos.columnNumber
  sourceLine := options.sourceLine r.pos.line
  suggestions := r.refusal.suggestions

end StackLisp
