import StackLisp.Builtin
import StackLisp.Diagnostic.Style
import StackLisp.Image
import StackLisp.Table
import StackLisp.Text.Base64
import StackLisp.Text.Json

/-! Compiled functions made readable. -/
namespace StackLisp

open Text (lit decimal decimalInt)

/-- What a line of a listing says about its instruction. -/
inductive Remark where
  | none
  | note (text : Bytes)
  | constant (c : Constant) (text : Bytes)
deriving DecidableEq, Repr

structure ListedInstruction where
  placed : Instruction.Placed
  remark : Remark
deriving DecidableEq, Repr

/-- The readable form of a function. -/
structure Listing where
  name : Bytes
  params : Int
  captures : Int
  locals : List Bytes
  constants : List Bytes
  instructions : List ListedInstruction
deriving DecidableEq, Repr

/-- Why a function cannot be listed. -/
inductive ListingFault where
  | undecodable (fault : Instruction.DecodeFault)
  | constantOutOfRange (index : Nat)
deriving DecidableEq, Repr

def ListingFault.message : ListingFault → Bytes
  | undecodable fault => fault.message
  | constantOutOfRange index => lit "constant index out of range: " ++ decimal index

namespace Remark

def text : Remark → Bytes
  | none => []
  | note text => text
  | constant _ text => text

/-- Constants are colored by their kind. -/
def render (colored : Bool) : Remark → Bytes
  | none => []
  | note text => if text = [] then [] else Style.brightCyan.paint colored text
  | constant c text =>
    let style :=
      match c with
      | .value (.int _) | .value (.float _) => Style.yellow
      | .value (.string _) | .value (.char _) => Style.green
      | .function _ => Style.magenta
      | _ => Style.bold
    style.paint colored text

end Remark

namespace Listing

def displayName (name : Bytes) : Bytes := if name = [] then lit "<anonymous>" else name

/-- Long strings are cut at this many bytes. -/
def longest : Nat := 80

def describe (img : Image) : Constant → Bytes
  | .function i => lit "func:" ++ displayName (((img.get? i).map Function.name).getD [])
  | .value (.string s) =>
    Text.quote (if s.length > longest then s.take (longest - 3) ++ lit "..." else s)
  | .value v => v.render
  | .foreign => lit "\x7b\x7d"

/-- The name of a slot, by its number if it has none. -/
def slotName (f : Function) (slot : Nat) : Bytes :=
  let name := f.localName slot
  if name = [] then lit "local_" ++ decimal slot else name

def builtinName (table : BuiltinTable) (id : Nat) : Bytes :=
  match table.entries.find? fun b => b.id.toNat = id with
  | some b => b.name
  | none => lit "builtin_" ++ decimal id

def remark (img : Image) (table : BuiltinTable) (f : Function) (i : Instruction) :
    Except ListingFault Remark :=
  match i.slot?, i.poolIndex? with
  | some slot, _ => .ok (.note (slotName f slot))
  | none, some index =>
    match f.constants[index]? with
    | some c => .ok (.constant c (describe img c))
    | none => .error (.constantOutOfRange index)
  | none, none =>
    match i.op, i.operands with
    | .callSys, id :: _ | .callSysArgs, id :: _ => .ok (.note (builtinName table id))
    | o, operand :: _ =>
      if o.isJump then .ok (.note (lit "-> " ++ decimal operand)) else .ok .none
    | _, _ => .ok .none

def listInstruction (img : Image) (table : BuiltinTable) (f : Function)
    (p : Instruction.Placed) : Except ListingFault ListedInstruction := do
  let r ← remark img table f p.instr
  pure ⟨p, r⟩

/-- The readable form of one function of an image. -/
def ofFunction (img : Image) (table : BuiltinTable) (f : Function) :
    Except ListingFault Listing := do
  let placed ← (Instruction.decode f.bytes).mapError .undecodable
  let is ← placed.mapM (listInstruction img table f)
  pure {
    name := displayName f.name
    params := f.params
    captures := f.captures
    locals := f.locals
    constants := f.constants.map (describe img)
    instructions := is }

/-- A fault in the function of the given display name. -/
structure Fault where
  function : Bytes
  fault : ListingFault
deriving DecidableEq, Repr

def Fault.message (f : Fault) : Bytes := f.function ++ lit ": " ++ f.fault.message

/-- The readable forms of all functions reachable from the entry, in the order of
`Image.flatten`. -/
def ofImage (table : BuiltinTable) (img : Image) : Except Fault (List Listing) :=
  img.flattened.mapM fun f =>
    (ofFunction img table f).mapError fun fault => ⟨displayName f.name, fault⟩

def row (colored : Bool) (i : ListedInstruction) : List Bytes :=
  [decimal i.placed.offset, Style.bold.paint colored i.placed.instr.op.name,
    Text.join (lit ", ") (i.placed.instr.operands.map decimal), i.remark.render colored]

def table (colored : Bool) (l : Listing) : Table where
  header := [lit "OFFSET", lit "OPCODE", lit "OPERANDS", lit "INFO"]
  rows := l.instructions.map (row colored)
  columns := [.right, .left, .right, .left]
  headerAlignment := [.center, .center, .center, .center]

def title (l : Listing) : Bytes :=
  l.name ++ lit "/" ++ decimalInt l.params
    ++ if l.captures > 0 then lit " captures:" ++ decimalInt l.captures else []

def render (colored : Bool) (l : Listing) : Bytes :=
  Style.boldUnderlined.paint colored l.title ++ lit "\n" ++ (l.table colored).render

/-- Listings with an empty line between them. -/
def renderAll (colored : Bool) (ls : List Listing) : Bytes :=
  Text.join (lit "\n") (ls.map (render colored))

/-- A field that is left out when its value is empty. -/
def optionalField (key : String) (isEmpty : Bool) (value : Json) : List (Bytes × Json) :=
  if isEmpty then [] else [(lit key, value)]

def instructionJson (i : ListedInstruction) : Json :=
  let operands := i.placed.instr.operands
  .object ([(lit "offset", .int i.placed.offset), (lit "opcode", .string i.placed.instr.op.name)]
    ++ optionalField "operands" operands.isEmpty
      (.string (Text.base64 (operands.map Nat.toUInt8)))
    ++ optionalField "info" i.remark.text.isEmpty (.string i.remark.text))

def toJson (l : Listing) : Json :=
  .object ([(lit "name", .string l.name), (lit "parameters", .int l.params),
      (lit "captures", .int l.captures)]
    ++ optionalField "locals" l.locals.isEmpty (.array (l.locals.map .string))
    ++ optionalField "constants" l.constants.isEmpty (.array (l.constants.map .string))
    ++ [(lit "instructions", .array (l.instructions.map instructionJson))])

end Listing
end StackLisp
