import StackLisp.Cbor.Content
import StackLisp.Image

/-! The binary form of images, and of units: the images of the forms of a program. -/
namespace StackLisp

open Text (lit decimal decimalInt)

/-- The version of the format. -/
def formatVersion : Int := 1

namespace Cbor

/-- A field of a record. -/
def field (n : Nat) (item : Cbor) : Cbor × Cbor := (unsigned n, item)

/-- A field that is left out when its value is the default. -/
def fieldUnless (isDefault : Bool) (n : Nat) (item : Cbor) : List (Cbor × Cbor) :=
  if isDefault then [] else [field n item]

end Cbor

open Cbor (field fieldUnless ofInt ofText)

/-- A constant of a type the format does not know. -/
inductive WriteFault where
  | foreign
deriving DecidableEq, Repr

def WriteFault.message : WriteFault → Bytes
  | foreign => lit "bytecode: unknown constant type: struct \x7b\x7d"

namespace Constant

/-- Numbers of the kinds of constants. -/
def record (kind : Nat) (i : Int) (s : Bytes) : Cbor :=
  .map (field 1 (.unsigned kind) :: fieldUnless (i = 0) 2 (ofInt i)
    ++ fieldUnless (s = []) 3 (ofText s))

/-- Floats are stored by their bits. -/
def toCbor : Constant → Except WriteFault Cbor
  | .value .unit => .ok (record 1 0 [])
  | .value (.bool b) => .ok (record 2 (if b then 1 else 0) [])
  | .value (.int i) => .ok (record 3 i.toInt [])
  | .value (.float x) => .ok (record 4 x.bits.toInt64.toInt [])
  | .value (.string s) => .ok (record 5 0 s)
  | .value (.char c) => .ok (record 6 c.toInt [])
  | .value (.name n) => .ok (record 7 0 n)
  | .function i => .ok (record 8 i [])
  | .foreign => .error .foreign

end Constant

namespace SourceLocation

def toCbor (l : SourceLocation) : Cbor :=
  .map [field 1 (ofInt l.offset), field 2 (ofInt l.line), field 3 (ofInt l.column)]

def ofCbor? (item : Cbor) : Option SourceLocation := do
  let fs ← item.toFields?
  let offset ← fs.get? 1 0 Cbor.toInt64?
  let line ← fs.get? 2 0 Cbor.toInt64?
  let column ← fs.get? 3 0 Cbor.toInt64?
  pure ⟨offset, line, column⟩

end SourceLocation

namespace Function

def toCbor (f : Function) : Except WriteFault Cbor := do
  let constants ← f.constants.mapM Constant.toCbor
  pure (.map (fieldUnless (f.name = []) 1 (ofText f.name)
    ++ [field 2 (ofInt f.params)]
    ++ fieldUnless (f.captures = 0) 3 (ofInt f.captures)
    ++ fieldUnless constants.isEmpty 4 (.array constants)
    ++ [field 5 (match f.code with | some code => .bytes code | none => .null)]
    ++ fieldUnless f.locals.isEmpty 6 (.array (f.locals.map ofText))
    ++ fieldUnless (f.filename = []) 7 (ofText f.filename)
    ++ fieldUnless f.locations.isEmpty 8 (.array (f.locations.map SourceLocation.toCbor))))

end Function

namespace Image

def toCbor (img : Image) : Except WriteFault Cbor := do
  let functions ← img.canonical.functions.mapM Function.toCbor
  pure (.map [field 1 (ofInt formatVersion), field 2 (.array functions)])

/-- The binary form of an image: the functions reachable from its entry. -/
def toBytes (img : Image) : Except WriteFault Bytes := img.toCbor.map Cbor.encode

/-- What stands for a constant in an image that is being read. -/
structure ConstantRecord where
  kind : Nat
  int : Int
  text : Bytes
deriving DecidableEq, Repr

def ConstantRecord.ofCbor? (item : Cbor) : Option ConstantRecord := do
  let fs ← item.toFields?
  let kind ← fs.get? 1 0 Cbor.toByte?
  let int ← fs.get? 2 0 Cbor.toInt64?
  let text ← fs.get? 3 [] Cbor.toText?
  pure ⟨kind.toNat, int, text⟩

/-- A function that is being read, and its constants. -/
structure FunctionRecord where
  function : Function
  constants : List ConstantRecord
deriving DecidableEq, Repr

def FunctionRecord.ofCbor? (item : Cbor) : Option FunctionRecord := do
  let fs ← item.toFields?
  let name ← fs.get? 1 [] Cbor.toText?
  let params ← fs.get? 2 0 Cbor.toInt64?
  let captures ← fs.get? 3 0 Cbor.toInt64?
  let constants ← fs.get? 4 [] (Cbor.toList? ConstantRecord.ofCbor?)
  let code ← fs.get? 5 none Cbor.toBytes?
  let locals ← fs.get? 6 [] (Cbor.toList? Cbor.toText?)
  let filename ← fs.get? 7 [] Cbor.toText?
  let locations ← fs.get? 8 [] (Cbor.toList? SourceLocation.ofCbor?)
  pure ⟨{ name, params, captures, code, locals, filename, locations }, constants⟩

structure Record where
  version : Int
  functions : List FunctionRecord
deriving DecidableEq, Repr

def Record.ofCbor? (item : Cbor) : Option Record := do
  let fs ← item.toFields?
  let version ← fs.get? 1 0 Cbor.toInt64?
  let functions ← fs.get? 2 [] (Cbor.toList? FunctionRecord.ofCbor?)
  pure ⟨version, functions⟩

/-- What is wrong with an image that is well-formed data. -/
inductive ReadFault where
  | version (v : Int)
  | noFunctions
  | outOfOrder (function constant : Nat) (reference : Int)
  | unknownKind (function constant kind : Nat)
  | invalid (fault : Image.Fault)
deriving DecidableEq, Repr

namespace ReadFault

def constantPlace (function constant : Nat) : Bytes :=
  lit "function " ++ decimal function ++ lit " constant " ++ decimal constant ++ lit ": "

def message : ReadFault → Bytes
  | version v => lit "unsupported format version " ++ decimalInt v
  | noFunctions => lit "no functions"
  | outOfOrder f c r =>
    constantPlace f c ++ lit "function reference " ++ decimalInt r ++ lit " out of order"
  | unknownKind f c k => constantPlace f c ++ lit "unknown constant kind " ++ decimal k
  | invalid fault => lit "invalid code: " ++ fault.message

end ReadFault

/-- The constant at place `c` of function `f`, which may refer to the functions before it. -/
def ConstantRecord.constant (f c : Nat) (r : ConstantRecord) : Except ReadFault Constant :=
  match r.kind with
  | 1 => .ok (.value .unit)
  | 2 => .ok (.value (.bool (r.int ≠ 0)))
  | 3 => .ok (.value (.int (Int64.ofInt r.int)))
  | 4 => .ok (.value (.float ⟨(Int64.ofInt r.int).toUInt64⟩))
  | 5 => .ok (.value (.string r.text))
  | 6 => .ok (.value (.char (Int32.ofInt r.int)))
  | 7 => .ok (.value (.name r.text))
  | 8 =>
    if 0 ≤ r.int ∧ r.int < f then .ok (.function r.int.toNat)
    else .error (.outOfOrder f c r.int)
  | k => .error (.unknownKind f c k)

def constantsFrom (f c : Nat) : List ConstantRecord → Except ReadFault (List Constant)
  | [] => .ok []
  | r :: rest => do
    let k ← r.constant f c
    let ks ← constantsFrom f (c + 1) rest
    pure (k :: ks)

def functionsFrom (f : Nat) : List FunctionRecord → Except ReadFault (List Function)
  | [] => .ok []
  | r :: rest => do
    let constants ← constantsFrom f 0 r.constants
    let fs ← functionsFrom (f + 1) rest
    pure ({ r.function with constants }.normalize :: fs)

/-- The image of a record, with valid code. -/
def ofRecord (r : Record) : Except ReadFault Image := do
  if r.version ≠ formatVersion then throw (.version r.version)
  if r.functions.isEmpty then throw .noFunctions
  let img : Image := ⟨← functionsFrom 0 r.functions⟩
  img.validate.mapError .invalid
  pure img

/-- Why bytes are not an image. -/
inductive BytesFault where
  | malformed
  | fault (f : ReadFault)
deriving DecidableEq, Repr

def BytesFault.message : BytesFault → Bytes
  | malformed => lit "bytecode: unmarshal: malformed data"
  | fault (.invalid f) => lit "bytecode: " ++ (ReadFault.invalid f).message
  | fault f => lit "bytecode: unmarshal: " ++ f.message

def ofBytes (data : Bytes) : Except BytesFault Image :=
  match (Cbor.read data).bind Record.ofCbor? with
  | none => .error .malformed
  | some r => (ofRecord r).mapError .fault

end Image

/-- The images of the forms of a program, in source order. -/
abbrev CodeUnit := List Image

namespace CodeUnit

/-- A form that cannot be written. -/
structure WriteFault where
  form : Nat
  fault : StackLisp.WriteFault
deriving DecidableEq, Repr

def WriteFault.message (f : WriteFault) : Bytes :=
  lit "form " ++ decimal f.form ++ lit ": " ++ f.fault.message

def formsToCbor (i : Nat) : List Image → Except WriteFault (List Cbor)
  | [] => .ok []
  | img :: rest => do
    let item ← img.toCbor.mapError fun fault => ⟨i, fault⟩
    let items ← formsToCbor (i + 1) rest
    pure (item :: items)

def toBytes (u : CodeUnit) : Except WriteFault Bytes := do
  let forms ← formsToCbor 0 u
  pure (Cbor.encode (.map [field 1 (ofInt formatVersion), field 2 (.array forms)]))

/-- A form that is null has no image. -/
def formOfCbor? (item : Cbor) : Option (Option Image.Record) :=
  if item.isNull then some none else (Image.Record.ofCbor? item).map some

structure Record where
  version : Int
  forms : List (Option Image.Record)
deriving DecidableEq, Repr

def Record.ofCbor? (item : Cbor) : Option Record := do
  let fs ← item.toFields?
  let version ← fs.get? 1 0 Cbor.toInt64?
  let forms ← fs.get? 2 [] (Cbor.toList? formOfCbor?)
  pure ⟨version, forms⟩

/-- Why bytes are not a unit. -/
inductive BytesFault where
  | malformed
  | version (v : Int)
  | emptyForm (i : Nat)
  | form (i : Nat) (f : Image.ReadFault)
deriving DecidableEq, Repr

def BytesFault.message : BytesFault → Bytes
  | malformed => lit "bytecode: unmarshal unit: malformed data"
  | version v => lit "bytecode: " ++ (Image.ReadFault.version v).message
  | emptyForm i => lit "bytecode: form " ++ decimal i ++ lit " is empty"
  | form i f => lit "bytecode: form " ++ decimal i ++ lit ": " ++ f.message

def imagesFrom (i : Nat) : List (Option Image.Record) → Except BytesFault (List Image)
  | [] => .ok []
  | none :: _ => .error (.emptyForm i)
  | some r :: rest => do
    let img ← (Image.ofRecord r).mapError (.form i)
    let imgs ← imagesFrom (i + 1) rest
    pure (img :: imgs)

def ofBytes (data : Bytes) : Except BytesFault CodeUnit :=
  match (Cbor.read data).bind Record.ofCbor? with
  | none => .error .malformed
  | some r => if r.version ≠ formatVersion then .error (.version r.version) else imagesFrom 0 r.forms

end CodeUnit
end StackLisp
