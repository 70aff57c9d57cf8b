import StackLisp.Cache

/-! The binary form of caches. -/
namespace StackLisp

open Cbor (field ofInt)

def Artifact.toCbor (a : Artifact) : Cbor :=
  .map [field 1 (.bytes a.digest), field 2 (.bytes a.label), field 3 (.unsigned a.forms),
    field 4 (.bytes a.code), field 5 (.bytes a.stamp.id), field 6 (ofInt a.stamp.time)]

def Artifact.ofCbor? (item : Cbor) : Option Artifact := do
  let fs ← item.toFields?
  let bytes (n : Nat) : Option Bytes := do (← fs.find? n) |>.toBytes?.join
  let digest ← bytes 1
  let label ← bytes 2
  let forms ← (← fs.find? 3).toInt64?
  let code ← bytes 4
  let id ← bytes 5
  let time ← (← fs.find? 6).toInt64?
  pure { digest, label, forms := forms.toNat, code, stamp := { id, time } }

namespace Cache

def toBytes (c : Cache) : Bytes := Cbor.encode (.array (c.artifacts.map Artifact.toCbor))

/-- A file without content is a cache without artifacts. -/
def ofBytes? (data : Bytes) : Option Cache :=
  if data = [] then some {}
  else match Cbor.read data with
    | some (.array items) => (items.mapM Artifact.ofCbor?).map Cache.mk
    | _ => none

end Cache
end StackLisp
