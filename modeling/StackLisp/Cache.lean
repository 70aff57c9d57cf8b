import StackLisp.Digest.Sha256
import StackLisp.Image.Format

/-! A store of compiled units under digests of what they were compiled from. -/
namespace StackLisp

open Text (lit decimal)

/-- The text of an input file. -/
structure SourceFile where
  filename : Bytes
  text : Bytes
deriving DecidableEq, Repr

/-- What an artifact is marked with when it is stored: a number of its own, as text, and the time in
seconds. -/
structure Stamp where
  id : Bytes
  time : Int
deriving DecidableEq, Repr

/-- A stored unit in its binary form. -/
structure Artifact where
  digest : Bytes
  label : Bytes
  forms : Nat
  code : Bytes
  stamp : Stamp
deriving DecidableEq, Repr

/-- Artifacts, of which no two have the same digest. -/
structure Cache where
  artifacts : List Artifact := []
deriving DecidableEq, Repr

namespace Cache

/-- A text behind its length, so that no two lists of texts give the same text. -/
def chunk (text : Bytes) : Bytes := decimal text.length ++ lit ":" ++ text

/-- What a key is the digest of: the version of the format, the sources in order, and the settings
in the order of their names. -/
def keyText (sources : List SourceFile) (settings : List (Bytes × Bytes)) : Bytes :=
  chunk (Text.decimalInt formatVersion)
    ++ sources.flatMap (fun s => chunk s.filename ++ chunk s.text)
    ++ (settings.mergeSort fun a b => a.1 ≤ b.1).flatMap fun (k, v) => chunk k ++ chunk v

/-- The key of a unit. -/
def key (sources : List SourceFile) (settings : List (Bytes × Bytes)) : Bytes :=
  Text.hex (Sha256.hash (keyText sources settings))

inductive Fault where
  | notFound
  | unreadable (fault : CodeUnit.BytesFault)
deriving DecidableEq, Repr

def Fault.message : Fault → Bytes
  | notFound => lit "artifact not found"
  | unreadable fault => lit "artifact: " ++ fault.message

/-- Stores a unit in place of one with the same digest. -/
def put (c : Cache) (digest label : Bytes) (unit : CodeUnit) (stamp : Stamp) :
    Except CodeUnit.WriteFault (Cache × Artifact) := do
  let code ← unit.toBytes
  let a : Artifact := { digest, label, forms := unit.length, code, stamp }
  pure (⟨c.artifacts.filter (·.digest ≠ digest) ++ [a]⟩, a)

def get (c : Cache) (digest : Bytes) : Except Fault (Artifact × CodeUnit) :=
  match c.artifacts.find? fun a => a.digest = digest with
  | none => .error .notFound
  | some a => ((CodeUnit.ofBytes a.code).mapError .unreadable).map fun unit => (a, unit)

/-- Newest first; those of one second by digest. -/
def list (c : Cache) : List Artifact :=
  c.artifacts.mergeSort fun a b =>
    a.stamp.time > b.stamp.time
      || (a.stamp.time == b.stamp.time && decide (a.digest ≤ b.digest))

/-- Removes what is older than a time, and tells how many artifacts that were. -/
def prune (c : Cache) (before : Int) : Cache × Nat :=
  let kept := c.artifacts.filter fun a => decide (before ≤ a.stamp.time)
  (⟨kept⟩, c.artifacts.length - kept.length)

end Cache
end StackLisp
