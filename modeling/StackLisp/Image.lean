import StackLisp.Function

/-! Images: groups of functions that refer to each other through their constant pools. -/
namespace StackLisp

open Text (lit decimal decimalInt)

/-- Functions that name each other by their places; the last is the entry. Those that are compiled
or read stand in an order in which each refers only to earlier ones. Two pool entries are the same
function exactly when they have the same index. -/
structure Image where
  functions : List Function
deriving DecidableEq, Repr

namespace Image

/-- Every function refers to earlier ones only. -/
def Ordered (img : Image) : Prop :=
  ∀ (i : Nat) (f : Function), img.functions[i]? = some f → ∀ j ∈ f.references, j < i

def get? (img : Image) (i : Nat) : Option Function := img.functions[i]?

def root? (img : Image) : Option Function := img.functions.getLast?

/-- The image whose entry is the function at the given place. -/
def upTo (img : Image) (i : Nat) : Image := ⟨img.functions.take (i + 1)⟩

/-- The functions that the pool of the function at a place names, in pool order. -/
def referencesAt (img : Image) (i : Nat) : List Nat :=
  match img.get? i with
  | none => []
  | some f => f.references

/-- A tour of the functions of an image: those it has come to, and those it has left, in the order
in which it left them. -/
structure Tour where
  met : List Nat := []
  listed : List Nat := []

def Tour.meet (t : Tour) (i : Nat) : Tour := { t with met := i :: t.met }

def Tour.leave (t : Tour) (i : Nat) : Tour := { t with listed := t.listed ++ [i] }

/-- The functions that a tour has not come to. -/
def unmet (img : Image) (met : List Nat) : List Nat :=
  (List.range img.functions.length).filter (· ∉ met)

theorem length_unmet_lt {img : Image} {i : Nat} {met met' : List Nat} (hnew : i ∉ met)
    (hi : i < img.functions.length) (h : i :: met ⊆ met') :
    (img.unmet met').length < (img.unmet met).length := by
  have hsplit : img.unmet met' = (img.unmet met).filter (· ∉ met') := by
    unfold unmet
    rw [List.filter_filter]
    refine List.filter_congr fun x _ => ?_
    have hsub : x ∈ met → x ∈ met' := fun hx => h (.tail _ hx)
    by_cases hx : x ∈ met <;> simp [hx, hsub]
  rw [hsplit, List.length_filter_lt_length_iff_exists]
  exact ⟨i, by simp [unmet, hi, hnew], by simpa using h (.head _)⟩

/-- Goes on with a tour at a function, unless it has been there: a function is met before those of
its pool are visited, and listed behind them. -/
def visit (img : Image) (i : Nat) (t : Tour) : { t' : Tour // t.met ⊆ t'.met } :=
  if i ∈ t.met ∨ img.functions.length ≤ i then ⟨t, List.Subset.refl _⟩
  else
    let entered : { t' : Tour // i :: t.met ⊆ t'.met } := ⟨t.meet i, List.Subset.refl _⟩
    let done := (img.referencesAt i).foldl (fun s j =>
      let next := visit img j s.1
      ⟨next.1, List.Subset.trans s.2 next.2⟩) entered
    ⟨done.1.leave i, List.Subset.trans (List.subset_cons_self _ _) done.2⟩
termination_by (img.unmet t.met).length
decreasing_by
  next h => exact length_unmet_lt (fun hi => h (.inl hi)) (by omega) s.2

/-- The functions reachable from the entry, each once and behind all it refers to. -/
def flatten (img : Image) : List Nat :=
  match img.functions.length with
  | 0 => []
  | n + 1 => (img.visit n {}).1.listed

def flattened (img : Image) : List Function := img.flatten.filterMap img.get?

/-- A constant as seen after the functions have been put in the given order. -/
def relabel (order : List Nat) : Constant → Constant
  | .function i => .function (order.idxOf i)
  | c => c

/-- The reachable functions alone, in the order of `flatten`. -/
def canonical (img : Image) : Image :=
  let order := img.flatten
  ⟨img.flattened.map fun f => { f with constants := f.constants.map (relabel order) }⟩

/-- The functions that the entry names in its pool. -/
def nested (img : Image) : List Function :=
  match img.root? with
  | none => []
  | some f => f.references.filterMap img.get?

/-- The image of the reachable function with the given name, the first in `flatten`. -/
def find? (img : Image) (name : Bytes) : Option Image :=
  (img.flatten.find? fun i => (img.get? i).any fun f => f.name = name).map img.upTo

/-- What is wrong with the code of a function. -/
inductive CodeFault where
  | undecodable (fault : Instruction.DecodeFault)
  | constantOutOfRange (op : Opcode) (offset index : Nat)
  | targetOutOfRange (op : Opcode) (offset target : Nat)
  | notFunction (offset index : Nat)
  | captureMismatch (offset given : Nat) (wanted : Int)
deriving DecidableEq, Repr

def CodeFault.message : CodeFault → Bytes
  | undecodable fault => fault.message
  | constantOutOfRange op offset index =>
    op.name ++ lit " at offset " ++ decimal offset ++ lit ": constant index " ++ decimal index
      ++ lit " out of range"
  | targetOutOfRange op offset target =>
    op.name ++ lit " at offset " ++ decimal offset ++ lit ": target " ++ decimal target
      ++ lit " out of range"
  | notFunction offset index =>
    lit "BUILD_CLOSURE at offset " ++ decimal offset ++ lit ": constant " ++ decimal index
      ++ lit " is not a function"
  | captureMismatch offset given wanted =>
    lit "BUILD_CLOSURE at offset " ++ decimal offset ++ lit ": " ++ decimal given
      ++ lit " values for " ++ decimalInt wanted ++ lit " captures"

def checkIndex (f : Function) (p : Instruction.Placed) : Except CodeFault Unit :=
  match p.instr.poolIndex? with
  | some index =>
    if index < f.constants.length then .ok ()
    else .error (.constantOutOfRange p.instr.op p.offset index)
  | none => .ok ()

/-- A jump may lead to the end of the code. -/
def checkTarget (f : Function) (p : Instruction.Placed) : Except CodeFault Unit :=
  match p.instr.target? with
  | some target =>
    if target ≤ f.bytes.length then .ok ()
    else .error (.targetOutOfRange p.instr.op p.offset target)
  | none => .ok ()

def checkClosure (img : Image) (f : Function) (p : Instruction.Placed) : Except CodeFault Unit :=
  match p.instr with
  | ⟨.buildClosure, [index, count]⟩ =>
    match f.constants[index]? with
    | some (.function i) =>
      let wanted := ((img.get? i).map Function.captures).getD 0
      if (count : Int) = wanted then .ok () else .error (.captureMismatch p.offset count wanted)
    | _ => .error (.notFunction p.offset index)
  | _ => .ok ()

def checkInstruction (img : Image) (f : Function) (p : Instruction.Placed) :
    Except CodeFault Unit := do
  checkIndex f p
  checkTarget f p
  checkClosure img f p

def checkFunction (img : Image) (f : Function) : Except CodeFault Unit :=
  match Instruction.decode f.bytes with
  | .error fault => .error (.undecodable fault)
  | .ok is => is.forM (checkInstruction img f)

/-- A fault in the code of one function of an image. -/
structure Fault where
  function : Bytes
  fault : CodeFault
deriving DecidableEq, Repr

def Fault.message (f : Fault) : Bytes :=
  (if f.function = [] then [] else lit "function " ++ f.function ++ lit ": ") ++ f.fault.message

/-- Checks the code of all reachable functions: it splits into instructions, constants and jump
targets are in range, and closures capture as many values as their functions need. -/
def validate (img : Image) : Except Fault Unit :=
  img.flattened.forM fun f => (checkFunction img f).mapError fun fault => ⟨f.name, fault⟩

end Image
end StackLisp
