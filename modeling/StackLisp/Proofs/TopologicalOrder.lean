import Mathlib.Data.List.Forall2
import StackLisp.Proofs.Copies

/-! Graphs of functions, numbered in any way, are listed in a topological order, and the places in
that order are the references of the image that is written. -/
namespace StackLisp.Image

variable {img : Image}

/-- Every reference of a function of the canonical form is the place of the function that is meant,
before its own. -/
theorem exists_get?_canonical (hacyclic : img.Acyclic) (hne : img.functions ≠ []) {p i : Nat}
    {f : Function} (hp : img.flatten[p]? = some i) (hf : img.get? i = some f) :
    ∃ g, img.canonical.get? p = some g ∧
      List.Forall₂ (fun j q => q < p ∧ img.flatten[q]? = some j) f.references g.references := by
  have htopological := topological_flatten hacyclic hne
  refine ⟨moved img.flatten f, ?_, ?_⟩
  · rw [get?_canonical hacyclic hne, hp, Option.bind_some, hf, Option.map_some]
  · rw [references_moved, List.forall₂_map_right_iff, List.forall₂_same]
    intro j hj
    obtain ⟨q, hq, hjq⟩ := htopological.before hp hf hj
    rw [idxOf_of_getElem? htopological.nodup hjq]
    exact ⟨hq, hjq⟩

/-- In a graph without cycles, the functions are listed in a topological order: the entry and all
that it reaches through constant pools, and no others, each of them once and behind every function
of its pool, with the entry last. So in the image that is written every function refers to places
below its own, and the function at such a place is the one that its pool names. -/
theorem flatten_sorts (hacyclic : img.Acyclic) (hne : img.functions ≠ []) :
    img.flatten.Nodup ∧
    (∀ i, i ∈ img.flatten ↔ img.Reaches img.entry i) ∧
    (∀ (p i : Nat) (f : Function), img.flatten[p]? = some i → img.get? i = some f →
      ∀ j ∈ f.references, ∃ q, q < p ∧ img.flatten[q]? = some j) ∧
    img.flatten.getLast? = some img.entry ∧
    img.canonical.Ordered ∧
    img.canonical.functions.length = img.flatten.length ∧
    ∀ (p i : Nat) (f : Function), img.flatten[p]? = some i → img.get? i = some f →
      ∃ g, img.canonical.get? p = some g ∧
        List.Forall₂ (fun j q => q < p ∧ img.flatten[q]? = some j) f.references g.references := by
  have htopological := topological_flatten hacyclic hne
  obtain ⟨front, hfront⟩ := flatten_eq_append hne
  refine ⟨htopological.nodup, fun i => mem_flatten hacyclic hne, fun p i f hp hf j hj =>
    htopological.before hp hf hj, ?_, ordered_canonical hacyclic hne,
    length_canonical hacyclic hne, fun p i f => exists_get?_canonical hacyclic hne⟩
  rw [hfront, List.getLast?_concat]

/-- Functions that share others and are not numbered in an order of their own. The one at 4 is not
reached from the entry. -/
def braid : Image :=
  ⟨[{ constants := [.function 3, .function 1] }, {},
    { constants := [.function 0, .value .unit, .function 1, .function 0] },
    { constants := [.function 1] }, { constants := [.function 2] },
    { constants := [.function 2, .function 3] }]⟩

theorem acyclic_braid : braid.Acyclic := by
  have hranked : ∀ (i : Nat) (hi : i < braid.functions.length),
      ∀ j ∈ braid.functions[i].references, j < braid.functions.length ∧
        [1, 3, 0, 2, 4, 5].idxOf j < [1, 3, 0, 2, 4, 5].idxOf i := by decide
  have hget : ∀ i f, braid.get? i = some f → ∀ j ∈ f.references, j < braid.functions.length ∧
      [1, 3, 0, 2, 4, 5].idxOf j < [1, 3, 0, 2, 4, 5].idxOf i := by
    intro i f hf
    obtain ⟨hi, rfl⟩ := List.getElem?_eq_some_iff.1 hf
    exact hranked i hi
  exact acyclic_of_rank (fun i f hf j hj => (hget i f hf j hj).2)
    fun i f hf j hj => (hget i f hf j hj).1

theorem flatten_sorts_braid :
    braid.Acyclic ∧ braid.functions ≠ [] ∧ braid.flatten = [1, 3, 0, 2, 5] ∧
    ¬ braid.Reaches 5 4 ∧ braid.canonical.Ordered ∧
    braid.canonical.functions.map Function.references = [[], [0], [1, 0], [2, 0, 2], [3, 1]] := by
  have hflatten : braid.flatten = [1, 3, 0, 2, 5] := by decide +kernel
  obtain ⟨-, hreached, -, -, hordered, -⟩ := flatten_sorts acyclic_braid (by decide)
  refine ⟨acyclic_braid, by decide, hflatten, fun hreach => ?_, hordered, by decide +kernel⟩
  have hmem := (hreached 4).2 hreach
  rw [hflatten] at hmem
  simp at hmem

end StackLisp.Image
