import Mathlib.Data.List.Basic
import StackLisp.Proofs.Flattening
import StackLisp.Proofs.Sequences

/-! Copies of images. The reachable functions alone, in the order in which they are listed, are the
same functions with the same sharing, and they pass the same checks. -/
namespace StackLisp

/-- The constant after every function has gone to a new place. -/
def Constant.renamed (place : Nat → Nat) : Constant → Constant
  | .function i => .function (place i)
  | c => c

namespace Image

variable {img : Image}

/-- `place` takes the functions that the entry reaches to those of the copy: the entry to the entry,
and no two to one. They agree in all but the places of the functions in their pools. -/
structure CopiedBy (img copy : Image) (place : Nat → Nat) : Prop where
  entry : place img.entry = copy.entry
  function : ∀ i f, img.Reaches img.entry i → img.get? i = some f →
    copy.get? (place i) = some { f with constants := f.constants.map (.renamed place) }
  injective : ∀ i j, img.Reaches img.entry i → img.Reaches img.entry j → place i = place j → i = j
  onto : ∀ k, k < copy.functions.length → ∃ i, img.Reaches img.entry i ∧ place i = k

/-- The copy holds the functions that the entry reaches, with the same sharing, and no others. -/
def Same (img copy : Image) : Prop := ∃ place, img.CopiedBy copy place

/-- The functions that the entry reaches. -/
def Holds (img : Image) (f : Function) : Prop := ∃ i, img.Reaches img.entry i ∧ img.get? i = some f

theorem Holds.mem {f : Function} (h : img.Holds f) : f ∈ img.functions := by
  obtain ⟨i, -, hf⟩ := h
  exact List.mem_of_getElem? hf

theorem relabel_eq_renamed (order : List Nat) : relabel order = .renamed order.idxOf := by
  funext c
  cases c <;> rfl

theorem references_moved (order : List Nat) (f : Function) :
    (moved order f).references = f.references.map order.idxOf := by
  unfold moved Function.references
  dsimp only
  rw [List.filterMap_map, List.map_filterMap]
  congr 1
  funext c
  cases c <;> rfl

theorem idxOf_of_getElem? {order : List Nat} (h : order.Nodup) {p i : Nat}
    (hp : order[p]? = some i) : order.idxOf i = p := by
  obtain ⟨hlt, rfl⟩ := List.getElem?_eq_some_iff.1 hp
  exact h.idxOf_getElem p hlt

section
variable (hordered : img.Ordered) (hne : img.functions ≠ [])
include hordered hne

theorem mem_flattened {f : Function} : f ∈ img.flattened ↔ img.Holds f := by
  unfold flattened Holds
  rw [List.mem_filterMap]
  constructor
  · rintro ⟨i, hi, hf⟩
    exact ⟨i, (mem_flatten hordered.acyclic hne).1 hi, hf⟩
  · rintro ⟨i, hi, hf⟩
    exact ⟨i, (mem_flatten hordered.acyclic hne).2 hi, hf⟩

theorem get?_canonical_idxOf {i : Nat} {f : Function} (hi : i ∈ img.flatten)
    (hf : img.get? i = some f) :
    img.canonical.get? (img.flatten.idxOf i) = some (moved img.flatten f) := by
  rw [get?_canonical hordered.acyclic hne, List.getElem?_idxOf hi, Option.bind_some, hf,
    Option.map_some]

/-- The canonical form is the same image. -/
theorem same_canonical : img.Same img.canonical := by
  have htopological := topological_flatten hordered.acyclic hne
  refine ⟨img.flatten.idxOf, ?_, fun i f hi hf => ?_, fun i j hi hj heq => ?_, fun k hk => ?_⟩
  · obtain ⟨front, hfront⟩ := flatten_eq_append hne
    have hlast : img.flatten[front.length]? = some img.entry := by
      rw [hfront, List.getElem?_append_right (Nat.le_refl _)]
      simp
    rw [idxOf_of_getElem? htopological.nodup hlast]
    show front.length = img.canonical.functions.length - 1
    rw [length_canonical hordered.acyclic hne, hfront]
    simp
  · rw [← relabel_eq_renamed]
    exact get?_canonical_idxOf hordered hne ((mem_flatten hordered.acyclic hne).2 hi) hf
  · have hi := List.getElem?_idxOf ((mem_flatten hordered.acyclic hne).2 hi)
    have hj := List.getElem?_idxOf ((mem_flatten hordered.acyclic hne).2 hj)
    rw [heq, hj] at hi
    exact (Option.some.inj hi).symm
  · rw [length_canonical hordered.acyclic hne] at hk
    have hget := List.getElem?_eq_getElem hk
    exact ⟨_, (mem_flatten hordered.acyclic hne).1 (List.mem_of_getElem? hget),
      idxOf_of_getElem? htopological.nodup hget⟩

end

theorem ordered_canonical (hacyclic : img.Acyclic) (hne : img.functions ≠ []) :
    img.canonical.Ordered := by
  intro p g hg j hj
  have htopological := topological_flatten hacyclic hne
  change img.canonical.get? p = some g at hg
  rw [get?_canonical hacyclic hne] at hg
  obtain ⟨f, hf, rfl⟩ := Option.map_eq_some_iff.1 hg
  obtain ⟨i, hi, hf⟩ := Option.bind_eq_some_iff.1 hf
  rw [references_moved] at hj
  obtain ⟨k, hk, rfl⟩ := List.mem_map.1 hj
  obtain ⟨q, hq, hkq⟩ := htopological.before hi hf hk
  rw [idxOf_of_getElem? htopological.nodup hkq]
  exact hq

/-! ### The checks of the code -/

theorem validate_ok_iff :
    img.validate = .ok () ↔ ∀ f ∈ img.flattened, checkFunction img f = .ok () := by
  unfold validate
  rw [List.forM_eq_ok_iff]
  refine forall₂_congr fun f _ => ?_
  cases checkFunction img f with
  | error e => simp [Except.mapError]
  | ok u => simp [Except.mapError]

/-- A check of an instruction looks at no more of the other functions than how many values they
capture. -/
theorem checkInstruction_moved {copy : Image} {order : List Nat} {f : Function}
    (h : ∀ j ∈ f.references, (copy.get? (order.idxOf j)).map Function.captures =
      (img.get? j).map Function.captures) (p : Instruction.Placed) :
    checkInstruction copy (moved order f) p = checkInstruction img f p := by
  have hindex : checkIndex (moved order f) p = checkIndex f p := by
    simp [checkIndex, moved]
  have htarget : checkTarget (moved order f) p = checkTarget f p := rfl
  have hclosure : checkClosure copy (moved order f) p = checkClosure img f p := by
    unfold checkClosure
    split
    · next index count _ =>
      cases hc : f.constants[index]? with
      | none => simp [moved, hc]
      | some c =>
        cases c with
        | function j =>
          have hj : j ∈ f.references :=
            List.mem_filterMap.2 ⟨_, List.mem_of_getElem? hc, rfl⟩
          simp [moved, relabel, hc, h j hj]
        | value v => simp [moved, relabel, hc]
        | foreign => simp [moved, relabel, hc]
    · rfl
  unfold checkInstruction
  rw [hindex, htarget, hclosure]

theorem validate_canonical (hordered : img.Ordered) (hne : img.functions ≠ [])
    (h : img.validate = .ok ()) : img.canonical.validate = .ok () := by
  have htopological := topological_flatten hordered.acyclic hne
  rw [validate_ok_iff] at h ⊢
  intro g hg
  obtain ⟨k, -, hk⟩ := List.mem_filterMap.1 hg
  obtain ⟨i, f, hi, hf, rfl⟩ := mem_canonical (List.mem_of_getElem? hk)
  have hcaptures : ∀ j ∈ f.references,
      (img.canonical.get? (img.flatten.idxOf j)).map Function.captures =
        (img.get? j).map Function.captures := by
    intro j hj
    have hmem := htopological.closed hi (.step hf hj .refl)
    obtain ⟨f', hf'⟩ := htopological.get hmem
    rw [get?_canonical_idxOf hordered hne hmem hf', hf']
    rfl
  have hok := h f (List.mem_filterMap.2 ⟨i, hi, hf⟩)
  unfold checkFunction at hok ⊢
  have hbytes : (moved img.flatten f).bytes = f.bytes := rfl
  rw [hbytes]
  cases hdecode : Instruction.decode f.bytes with
  | error e => simp [hdecode] at hok
  | ok ps =>
    rw [hdecode] at hok
    have hsame : checkInstruction img.canonical (moved img.flatten f) = checkInstruction img f :=
      funext (checkInstruction_moved hcaptures)
    dsimp only
    rw [hsame]
    exact hok

end Image
end StackLisp
