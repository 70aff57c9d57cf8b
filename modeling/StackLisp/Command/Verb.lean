import StackLisp.Command.Flag
import StackLisp.Diagnostic.Suggestion

/-! The tree of commands, and how an invocation is read from a command line. -/
namespace StackLisp

open Text (lit)

inductive Verb where
  | root
  | compile
  | dis
  | check
  | builtins
  | cache
  | cacheList
  | cachePrune
  | version
  | help
deriving DecidableEq, Repr

namespace Verb

/-- The full name of a command. -/
def title : Verb → Bytes
  | root => lit "kestrel"
  | compile => lit "kestrel compile"
  | dis => lit "kestrel dis"
  | check => lit "kestrel check"
  | builtins => lit "kestrel builtins"
  | cache => lit "kestrel cache"
  | cacheList => lit "kestrel cache list"
  | cachePrune => lit "kestrel cache prune"
  | version => lit "kestrel version"
  | help => lit "kestrel help"

/-- The commands below a command, by name. -/
def children : Verb → List (Bytes × Verb)
  | root =>
    [(lit "compile", compile), (lit "dis", dis), (lit "check", check), (lit "builtins", builtins),
      (lit "cache", cache), (lit "version", version)]
  | cache => [(lit "list", cacheList), (lit "prune", cachePrune)]
  | _ => []

/-- Other names of the commands below a command. -/
def aliases : Verb → List (Bytes × Verb)
  | root => [(lit "build", compile), (lit "help", help), (lit "completion", help)]
  | _ => []

/-- The names offered in place of one that is unknown. -/
def offered (v : Verb) : List Bytes :=
  v.children.map Prod.fst ++ if v = root then [lit "completion"] else []

def child? (v : Verb) (name : Bytes) : Option Verb := (v.children ++ v.aliases).lookup name

/-- Flags that a command and those below it take. -/
def sharedFlags : List Flag := [.verbose, .noColor, .globals, .lateBinding, .maxDepth]

/-- Flags that select the input. -/
def inputFlags : List Flag := [.code, .stdin, .project]

def ownFlags : Verb → List Flag
  | root | help => []
  | compile => inputFlags ++ [.output, .cache, .cachePath]
  | dis => inputFlags ++ [.function, .format]
  | check => inputFlags
  | builtins | version => [.format]
  | cache => [.cachePath]
  | cacheList => [.cachePath, .format]
  | cachePrune => [.cachePath, .olderThan]

/-- The flags known while the name of the command is looked for. -/
def knownFlags (v : Verb) : List Flag := v.ownFlags ++ sharedFlags

def flags (v : Verb) : List Flag :=
  v.knownFlags ++ [.help] ++ if v = root then [.version] else []

def takesOperands : Verb → Bool
  | builtins | cacheList | cachePrune | version => false
  | _ => true

/-- The next argument belongs to this one: a flag that is not known to be a switch, without a
value. -/
def takesNext (flags : List Flag) : Bytes → Bool
  | 45 :: 45 :: name => 61 ∉ name && !flags.any fun f => f.isSwitch && f.name = name
  | [45, c] => c ≠ 61 && !flags.any fun f => f.isSwitch && f.letter? = some c
  | _ => false

/-- The arguments that are neither flags nor their values. A flag with one argument behind it ends
the search. -/
def operands (flags : List Flag) : List Bytes → List Bytes
  | [] => []
  | argument :: rest =>
    if argument = lit "--" then []
    else if takesNext flags argument then
      match rest with
      | _ :: next :: more => operands flags (next :: more)
      | _ => []
    else if argument = [] ∨ argument.head? = some 45 then operands flags rest
    else argument :: operands flags rest

/-- The arguments without the first operand of the given name. -/
def without (flags : List Flag) (name : Bytes) : List Bytes → List Bytes
  | [] => []
  | argument :: rest =>
    if argument = lit "--" then argument :: rest
    else if takesNext flags argument then
      match rest with
      | value :: more => argument :: value :: without flags name more
      | [] => [argument]
    else if argument = name then rest
    else argument :: without flags name rest

/-- Goes from a command to the one below it that the first operand names, if it names one. -/
def descend (v : Verb) (args : List Bytes) : Verb × List Bytes :=
  match operands v.knownFlags args with
  | [] => (v, args)
  | name :: _ =>
    match v.child? name with
    | some w => (w, without v.knownFlags name args)
    | none => (v, args)

/-- The command that arguments name; there are two levels of commands. -/
def find (args : List Bytes) : Verb × List Bytes :=
  let (v, args) := descend root args
  descend v args

/-- Two texts compared byte by byte, in lower case. -/
def distance (a b : Bytes) : Nat :=
  let letters (text : Bytes) : List Char :=
    (Text.encode (Suggestion.lowerCase text)).map fun b => Char.ofNat b.toNat
  Suggestion.editDistance (letters a) (letters b)

/-- Commands that a name is nearly equal to or starts. -/
def similar (v : Verb) (name : Bytes) : List Bytes :=
  v.offered.filter fun n =>
    distance name n ≤ 2 || (Suggestion.lowerCase name).isPrefixOf (Suggestion.lowerCase n)

end Verb

/-- A command with its flags and operands. -/
structure Invocation where
  verb : Verb
  options : Options
  operands : List Bytes
deriving DecidableEq, Repr

namespace Invocation

/-- Whether usage is shown instead of running a command. -/
def wantsHelp (i : Invocation) : Bool :=
  i.options.help.getD false || i.verb = .help || i.verb = .cache
    || (i.verb = .root && !i.options.version.getD false)

/-- Reads the arguments of the program. -/
def parse (args : List Bytes) : Except UsageFault Invocation := do
  let (verb, args) := Verb.find args
  if verb = .root then
    if let name :: _ := Verb.operands verb.knownFlags args then
      throw (.unknownCommand name verb.title (verb.similar name))
  let (options, operands) ← Options.read verb.flags none {} args
  let i : Invocation := { verb, options, operands }
  if !i.wantsHelp ∧ !verb.takesOperands then
    if let name :: _ := operands then throw (.unknownCommand name verb.title [])
  return i

end Invocation
end StackLisp
