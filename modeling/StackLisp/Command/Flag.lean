import StackLisp.Number.Based
import StackLisp.Text.Csv
import StackLisp.Text.Quoted
import StackLisp.Time.Duration

/-! Flags of commands and how they are read from the arguments of a command line. -/
namespace StackLisp

open Text (lit)

inductive Flag where
  | verbose
  | noColor
  | globals
  | lateBinding
  | maxDepth
  | code
  | stdin
  | project
  | output
  | cache
  | cachePath
  | function
  | format
  | olderThan
  | help
  | version
deriving DecidableEq, Repr

/-- The values given to flags. -/
structure Options where
  verbose : Option Bool := none
  noColor : Option Bool := none
  globals : Option (List Bytes) := none
  lateBinding : Option Bool := none
  maxDepth : Option Int := none
  code : Option Bytes := none
  stdin : Option Bool := none
  project : Option Bytes := none
  output : Option Bytes := none
  cache : Option Bool := none
  cachePath : Option Bytes := none
  function : Option Bytes := none
  format : Option Bytes := none
  olderThan : Option Int := none
  help : Option Bool := none
  version : Option Bool := none
deriving DecidableEq, Repr

/-- The truth values have several spellings. -/
def switchValue? (text : Bytes) : Option Bool :=
  if text ∈ [lit "1", lit "t", lit "T", lit "true", lit "TRUE", lit "True"] then some true
  else if text ∈ [lit "0", lit "f", lit "F", lit "false", lit "FALSE", lit "False"] then some false
  else none

/-- Why a text is no value of a flag. -/
inductive ValueFault where
  | notSwitch
  | notNumber (fault : Number.Fault)
  | notNames (fault : Csv.Fault)
  | notDuration (fault : Duration.Fault)
deriving DecidableEq, Repr

/-- The message of a fault in a text. -/
def ValueFault.message (text : Bytes) : ValueFault → Bytes
  | notSwitch => lit "strconv.ParseBool: parsing " ++ Text.quote text ++ lit ": invalid syntax"
  | notNumber fault =>
    lit "strconv.ParseInt: parsing " ++ Text.quote text
      ++ lit (match fault with | .malformed => ": invalid syntax" | _ => ": value out of range")
  | notNames fault => fault.message
  | notDuration fault => fault.message text

namespace Flag

def name : Flag → Bytes
  | verbose => lit "verbose"
  | noColor => lit "no-color"
  | globals => lit "globals"
  | lateBinding => lit "late-binding"
  | maxDepth => lit "max-depth"
  | code => lit "code"
  | stdin => lit "stdin"
  | project => lit "project"
  | output => lit "output"
  | cache => lit "cache"
  | cachePath => lit "cache-path"
  | function => lit "func"
  | format => lit "format"
  | olderThan => lit "older-than"
  | help => lit "help"
  | version => lit "version"

/-- The letter that stands for a flag. -/
def letter? : Flag → Option UInt8
  | verbose => some 118
  | code => some 99
  | project => some 112
  | output => some 111
  | format => some 102
  | help => some 104
  | _ => none

/-- A switch needs no value. -/
def isSwitch : Flag → Bool
  | verbose | noColor | lateBinding | stdin | cache | help | version => true
  | _ => false

/-- A flag as messages name it. -/
def label (f : Flag) : Bytes :=
  (match f.letter? with | some c => lit "-" ++ [c] ++ lit ", " | none => []) ++ lit "--" ++ f.name

/-- Gives a value to a flag. The last one counts, but names add up. -/
def set (f : Flag) (text : Bytes) (o : Options) : Except ValueFault Options := do
  let switch : Except ValueFault Bool :=
    match switchValue? text with
    | some b => pure b
    | none => throw .notSwitch
  match f with
  | verbose => return { o with verbose := ← switch }
  | noColor => return { o with noColor := ← switch }
  | lateBinding => return { o with lateBinding := ← switch }
  | stdin => return { o with stdin := ← switch }
  | cache => return { o with cache := ← switch }
  | help => return { o with help := ← switch }
  | version => return { o with version := ← switch }
  | globals =>
    let names ← (Csv.read text).mapError .notNames
    return { o with globals := some (o.globals.getD [] ++ names) }
  | maxDepth => return { o with maxDepth := ← (Number.readBased text).mapError .notNumber }
  | olderThan => return { o with olderThan := ← (Duration.parse text).mapError .notDuration }
  | code => return { o with code := text }
  | project => return { o with project := text }
  | output => return { o with output := text }
  | cachePath => return { o with cachePath := text }
  | function => return { o with function := text }
  | format => return { o with format := text }

end Flag

/-- How a flag was written. -/
inductive Spelling where
  | long (argument : Bytes)
  | short (letter : UInt8)
deriving DecidableEq, Repr

/-- Why a command line cannot be understood. -/
inductive UsageFault where
  | unknownCommand (name command : Bytes) (similar : List Bytes)
  | badSyntax (argument : Bytes)
  | unknownFlag (name : Bytes)
  | unknownLetter (letter : UInt8) (letters : Bytes)
  | valueMissing (s : Spelling)
  | badValue (f : Flag) (text : Bytes) (fault : ValueFault)
deriving DecidableEq, Repr

namespace UsageFault

/-- A letter in single quotes, by number if it cannot be printed. -/
def quotedLetter (b : UInt8) : Bytes :=
  let c := Char.ofNat b.toNat
  let shown :=
    if b = 39 then lit "\\'"
    else if b = 34 then lit "\""
    else Text.quoteGlyph ⟨c, Text.encodeChar c⟩
  lit "'" ++ shown ++ lit "'"

def message : UsageFault → Bytes
  | unknownCommand name command similar =>
    lit "unknown command " ++ Text.quote name ++ lit " for " ++ Text.quote command
      ++ if similar = [] then []
        else lit "\n\nDid you mean this?\n" ++ similar.flatMap fun s => lit "\t" ++ s ++ lit "\n"
  | badSyntax argument => lit "bad flag syntax: " ++ argument
  | unknownFlag name => lit "unknown flag: --" ++ name
  | unknownLetter letter letters =>
    lit "unknown shorthand flag: " ++ quotedLetter letter ++ lit " in -" ++ letters
  | valueMissing (.long argument) => lit "flag needs an argument: " ++ argument
  | valueMissing (.short letter) =>
    lit "flag needs an argument: " ++ quotedLetter letter ++ lit " in -" ++ [letter]
  | badValue f text fault =>
    lit "invalid argument " ++ Text.quote text ++ lit " for " ++ Text.quote f.label ++ lit " flag: "
      ++ fault.message text

end UsageFault

namespace Options

/-- A flag that waits for its value, and how it was written. -/
abbrev Waiting := Option (Flag × Spelling)

def give (f : Flag) (text : Bytes) (o : Options) : Except UsageFault Options :=
  (f.set text o).mapError (.badValue f text)

/-- The value of a switch that is given without one. -/
def on : Bytes := lit "true"

/-- Reads a flag written by its name. -/
def readName (flags : List Flag) (argument name : Bytes) (o : Options) :
    Except UsageFault (Options × Waiting) := do
  if name.head? = some 45 ∨ name.head? = some 61 then throw (.badSyntax argument)
  let (name, value?) : Bytes × Option Bytes :=
    match Text.cut? 61 name with
    | some (before, after) => (before, some after)
    | none => (name, none)
  let some f := flags.find? (·.name = name) | throw (.unknownFlag name)
  match value? with
  | some value => return (← give f value o, none)
  | none =>
    if f.isSwitch then return (← give f on o, none)
    else return (o, some (f, .long argument))

/-- Reads flags written by their letters. What follows the letter of a flag that is no switch is its
value. -/
def readLetters (flags : List Flag) (o : Options) : Bytes → Except UsageFault (Options × Waiting)
  | [] => .ok (o, none)
  | c :: rest => do
    let some f := flags.find? (·.letter? = some c) | throw (.unknownLetter c (c :: rest))
    match rest with
    | 61 :: b :: value => return (← give f (b :: value) o, none)
    | [] => if f.isSwitch then return (← give f on o, none) else return (o, some (f, .short c))
    | b :: more =>
      if f.isSwitch then readLetters flags (← give f on o) (b :: more)
      else return (← give f (b :: more) o, none)

/-- Reads flags from arguments; those that are none are left over. -/
def read (flags : List Flag) : Waiting → Options → List Bytes →
    Except UsageFault (Options × List Bytes)
  | none, o, [] => .ok (o, [])
  | some (_, spelling), _, [] => .error (.valueMissing spelling)
  | some (f, _), o, value :: rest => do read flags none (← give f value o) rest
  | none, o, argument :: rest =>
    match argument with
    | [45, 45] => .ok (o, rest)
    | 45 :: 45 :: name => do
      let (o, waiting) ← readName flags argument name o
      read flags waiting o rest
    | 45 :: c :: more => do
      let (o, waiting) ← readLetters flags o (c :: more)
      read flags waiting o rest
    | _ => do
      let (o, left) ← read flags none o rest
      return (o, argument :: left)

end Options
end StackLisp
