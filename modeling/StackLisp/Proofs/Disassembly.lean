import Mathlib.Data.List.Forall2
import StackLisp.Listing
import StackLisp.Proofs.Sequences
import StackLisp.Proofs.Validation

/-! Listings of images. Whatever passes validation can be listed, function by function and
instruction by instruction, and listing fails exactly where code cannot be decoded or addresses a
constant that is not there. -/
namespace StackLisp

open Instruction (Placed)

theorem Instruction.slot?_of_poolIndex? {i : Instruction} {k : Nat} (h : i.poolIndex? = some k) :
    i.slot? = none := by
  obtain ⟨o, operands⟩ := i
  cases o with
  | compact f j | wide f =>
    cases hf : f.isSlot <;> simp_all [poolIndex?, slot?]
  | _ => rfl

namespace Listing

variable {img : Image} {table : BuiltinTable} {f : Function} {i : Instruction} {p : Placed}
  {row : ListedInstruction} {l : Listing}

/-! ### Lines -/

/-- The remark on the instruction `i` of the function `f`: the constant at the index that the
instruction addresses, and no constant if it addresses none. -/
structure Remarks (img : Image) (f : Function) (i : Instruction) (r : Remark) : Prop where
  pooled : ∀ k, i.poolIndex? = some k →
    ∃ c, f.constants[k]? = some c ∧ r = .constant c (describe img c)
  plain : i.poolIndex? = none → ∀ c text, r ≠ .constant c text

theorem remark_of_constant {k : Nat} {c : Constant} (h : i.poolIndex? = some k)
    (hc : f.constants[k]? = some c) :
    remark img table f i = .ok (.constant c (describe img c)) := by
  unfold remark
  rw [Instruction.slot?_of_poolIndex? h, h]
  dsimp only
  rw [hc]

theorem remark_of_missing {k : Nat} (h : i.poolIndex? = some k) (hc : f.constants[k]? = none) :
    remark img table f i = .error (.constantOutOfRange k) := by
  unfold remark
  rw [Instruction.slot?_of_poolIndex? h, h]
  dsimp only
  rw [hc]

theorem remark_of_plain (h : i.poolIndex? = none) :
    ∃ r, remark img table f i = .ok r ∧ ∀ c text, r ≠ .constant c text := by
  have note (text : Bytes) : ∃ r, (.ok (.note text) : Except ListingFault Remark) = .ok r ∧
      ∀ c text, r ≠ .constant c text := ⟨_, rfl, fun _ _ h => by cases h⟩
  have nothing : ∃ r, (.ok .none : Except ListingFault Remark) = .ok r ∧
      ∀ c text, r ≠ .constant c text := ⟨_, rfl, fun _ _ h => by cases h⟩
  unfold remark
  rw [h]
  cases i.slot? with
  | some slot => exact note _
  | none =>
    dsimp only
    split
    · exact note _
    · exact note _
    · split
      · exact note _
      · exact nothing
    · exact nothing

theorem remarks_of_remark {r : Remark} (h : remark img table f i = .ok r) : Remarks img f i r := by
  constructor
  · intro k hk
    cases hc : f.constants[k]? with
    | none => cases h.symm.trans (remark_of_missing hk hc)
    | some c =>
      cases h.symm.trans (remark_of_constant hk hc)
      exact ⟨c, rfl, rfl⟩
  · intro hnone
    obtain ⟨r', hr', hplain⟩ := remark_of_plain hnone
    cases h.symm.trans hr'
    exact hplain

theorem exists_remark :
    (∃ r, remark img table f i = .ok r) ↔ ∀ k, i.poolIndex? = some k → k < f.constants.length := by
  constructor
  · rintro ⟨r, hr⟩ k hk
    obtain ⟨c, hc, -⟩ := (remarks_of_remark hr).pooled k hk
    exact (List.getElem?_eq_some_iff.1 hc).1
  · intro h
    cases hk : i.poolIndex? with
    | none =>
      obtain ⟨r, hr, -⟩ := remark_of_plain hk
      exact ⟨r, hr⟩
    | some k => exact ⟨_, remark_of_constant hk (List.getElem?_eq_getElem (h k hk))⟩

theorem listInstruction_eq_ok_iff : listInstruction img table f p = .ok row ↔
    row.placed = p ∧ remark img table f p.instr = .ok row.remark := by
  unfold listInstruction
  cases hr : remark img table f p.instr with
  | error fault => simp [bind, Except.bind]
  | ok r =>
    obtain ⟨q, s⟩ := row
    simp [bind, Except.bind, pure, Except.pure, eq_comm]

/-! ### Listings of functions -/

/-- The code of the function can be decoded, and the constants that it addresses are there. -/
def Listable (f : Function) : Prop :=
  ∃ ps, Instruction.decode f.bytes = .ok ps ∧
    ∀ p ∈ ps, ∀ k, p.instr.poolIndex? = some k → k < f.constants.length

/-- The listing of the function `f` of an image: one line for each instruction, at the same offset
and with the same operands, and with the constants that the instructions address. -/
structure Shows (img : Image) (f : Function) (l : Listing) : Prop where
  heading : l.name = displayName f.name ∧ l.params = f.params ∧ l.captures = f.captures
  locals : l.locals = f.locals
  constants : l.constants = f.constants.map (describe img)
  placed : Instruction.decode f.bytes = .ok (l.instructions.map ListedInstruction.placed)
  remarks : ∀ row ∈ l.instructions, Remarks img f row.placed.instr row.remark

theorem not_listable_iff : ¬ Listable f ↔
    (∃ fault, Instruction.decode f.bytes = .error fault) ∨
    ∃ ps, Instruction.decode f.bytes = .ok ps ∧
      ∃ p ∈ ps, ∃ k, p.instr.poolIndex? = some k ∧ f.constants.length ≤ k := by
  unfold Listable
  cases Instruction.decode f.bytes with
  | error fault => simp
  | ok ps => simp

/-- The listing of a function with the given lines. -/
def withLines (img : Image) (f : Function) (rows : List ListedInstruction) : Listing where
  name := displayName f.name
  params := f.params
  captures := f.captures
  locals := f.locals
  constants := f.constants.map (describe img)
  instructions := rows

theorem ofFunction_eq_ok_iff : ofFunction img table f = .ok l ↔
    ∃ ps rows, Instruction.decode f.bytes = .ok ps ∧
      ps.mapM (listInstruction img table f) = .ok rows ∧ l = withLines img f rows := by
  have hsteps : ofFunction img table f =
      (Instruction.decode f.bytes).mapError .undecodable >>= fun ps =>
        ps.mapM (listInstruction img table f) >>= fun rows => .ok (withLines img f rows) := rfl
  rw [hsteps]
  cases Instruction.decode f.bytes with
  | error fault => simp [Except.mapError, bind, Except.bind]
  | ok ps =>
    cases hrows : ps.mapM (listInstruction img table f) with
    | error fault => simp [Except.mapError, bind, Except.bind, hrows]
    | ok rows => simp [Except.mapError, bind, Except.bind, hrows, eq_comm]

theorem shows_of_ofFunction (h : ofFunction img table f = .ok l) : l.Shows img f := by
  obtain ⟨ps, rows, hdecode, hrows, rfl⟩ := ofFunction_eq_ok_iff.1 h
  have hlines : rows.map ListedInstruction.placed = ps ∧
      ∀ row ∈ rows, Remarks img f row.placed.instr row.remark := by
    rw [List.mapM_eq_ok_iff] at hrows
    clear hdecode h
    induction hrows with
    | nil => exact ⟨rfl, List.forall_mem_nil _⟩
    | cons hrow _ ih =>
      obtain ⟨rfl, hremark⟩ := listInstruction_eq_ok_iff.1 hrow
      exact ⟨by rw [List.map_cons, ih.1], List.forall_mem_cons.2 ⟨remarks_of_remark hremark, ih.2⟩⟩
  exact ⟨⟨rfl, rfl, rfl⟩, rfl, rfl, hdecode.trans (congrArg _ hlines.1.symm), hlines.2⟩

theorem exists_ofFunction : (∃ l, ofFunction img table f = .ok l) ↔ Listable f := by
  constructor
  · rintro ⟨l, hl⟩
    have hshows := shows_of_ofFunction hl
    refine ⟨_, hshows.placed, fun p hp k hk => ?_⟩
    obtain ⟨row, hrow, rfl⟩ := List.mem_map.1 hp
    obtain ⟨c, hc, -⟩ := (hshows.remarks row hrow).pooled k hk
    exact (List.getElem?_eq_some_iff.1 hc).1
  · rintro ⟨ps, hdecode, hindexes⟩
    have hlines : ∀ p ∈ ps, ∃ row, listInstruction img table f p = .ok row := by
      intro p hp
      obtain ⟨r, hr⟩ := exists_remark.2 (hindexes p hp)
      exact ⟨⟨p, r⟩, listInstruction_eq_ok_iff.2 ⟨rfl, hr⟩⟩
    obtain ⟨rows, hrows⟩ := List.exists_mapM_eq_ok.2 hlines
    exact ⟨_, ofFunction_eq_ok_iff.2 ⟨ps, rows, hdecode, hrows, rfl⟩⟩

/-! ### Listings of images -/

theorem exists_ofImage : (∃ ls, ofImage table img = .ok ls) ↔ ∀ f ∈ img.flattened, Listable f := by
  unfold ofImage
  rw [List.exists_mapM_eq_ok]
  refine forall₂_congr fun f _ => ?_
  rw [← exists_ofFunction]
  exact exists_congr fun l => Except.mapError_eq_ok_iff

/-- Functions in the order of their places, each with what belongs to it. -/
theorem forall₂_of_filterMap {α : Type} {R : Function → α → Prop} {order : List Nat} {xs : List α}
    (hget : ∀ i ∈ order, ∃ f, img.get? i = some f)
    (h : List.Forall₂ R (order.filterMap img.get?) xs) :
    List.Forall₂ (fun i x => ∃ f, img.get? i = some f ∧ R f x) order xs := by
  induction order generalizing xs with
  | nil => exact (List.forall₂_nil_left_iff.1 h) ▸ .nil
  | cons i order ih =>
    obtain ⟨⟨f, hf⟩, hrest⟩ := List.forall_mem_cons.1 hget
    rw [List.filterMap_cons_some hf] at h
    cases h with
    | cons hx htail => exact .cons ⟨f, hf, hx⟩ (ih hrest htail)

theorem shows_of_ofImage (hordered : img.Ordered) (hne : img.functions ≠ []) {ls : List Listing}
    (h : ofImage table img = .ok ls) :
    List.Forall₂ (fun i l => ∃ f, img.get? i = some f ∧ l.Shows img f) img.flatten ls := by
  have htopological := Image.topological_flatten hordered.acyclic hne
  refine forall₂_of_filterMap (fun i hi => htopological.get hi) ?_
  exact (List.mapM_eq_ok_iff.1 h).imp fun f l hl =>
    shows_of_ofFunction (Except.mapError_eq_ok_iff.1 hl)

theorem listable_of_resolved (h : img.Resolved f) : Listable f := by
  obtain ⟨is, hfits, hcode, hresolves⟩ := h
  refine ⟨_, hcode ▸ Instruction.decode_encode hfits, fun p hp k hk => ?_⟩
  have hi := Instruction.instr_mem_of_placed hp
  exact (hresolves _ hi).constant k ((Instruction.addresses_iff (hfits _ hi)).2 hk)

/-- An image that passes validation has listings, with any table of system functions: one for each
function that the entry reaches, in their order, with the entry last, each of them showing the
instructions of the function and the constants that they address. An image has no listings exactly
if the code of a reachable function cannot be decoded or addresses a constant that is not there. -/
theorem ofImage_lists (table : BuiltinTable) {img : Image} (hordered : img.Ordered)
    (hne : img.functions ≠ []) :
    (img.validate = .ok () → ∃ ls, ofImage table img = .ok ls ∧
      List.Forall₂ (fun i l => ∃ f, img.get? i = some f ∧ l.Shows img f) img.flatten ls ∧
      img.flatten.getLast? = some img.entry) ∧
    ((∃ fault, ofImage table img = .error fault) ↔ ∃ f, img.Holds f ∧
      ((∃ fault, Instruction.decode f.bytes = .error fault) ∨
        ∃ ps, Instruction.decode f.bytes = .ok ps ∧
          ∃ p ∈ ps, ∃ k, p.instr.poolIndex? = some k ∧ f.constants.length ≤ k)) := by
  constructor
  · intro hvalid
    have hresolved := (Image.validate_ok_iff_resolved hordered hne).1 hvalid
    have hlistable : ∀ f ∈ img.flattened, Listable f := fun f hf =>
      listable_of_resolved (hresolved f ((Image.mem_flattened hordered hne).1 hf))
    obtain ⟨ls, hls⟩ : ∃ ls, ofImage table img = .ok ls := exists_ofImage.2 hlistable
    obtain ⟨front, hfront⟩ := Image.flatten_eq_append hne
    exact ⟨ls, hls, shows_of_ofImage hordered hne hls, by rw [hfront, List.getLast?_concat]⟩
  · have hfails : (∃ fault, ofImage table img = .error fault) ↔
        ¬ ∃ ls, ofImage table img = .ok ls := by
      cases ofImage table img <;> simp
    rw [hfails, exists_ofImage]
    simp only [not_forall, Image.mem_flattened hordered hne, not_listable_iff, exists_prop]

theorem chooser_listed :
    Image.chooser.Ordered ∧ Image.chooser.functions ≠ [] ∧ Image.chooser.validate = .ok () ∧
    ∃ ls, ofImage .standard .chooser = .ok ls ∧
      List.Forall₂ (fun i l => ∃ f, Image.chooser.get? i = some f ∧ l.Shows .chooser f)
        Image.chooser.flatten ls ∧
      ls.map (fun l => l.instructions.map fun row => (row.placed.offset, row.remark.text)) =
        [[(0, Text.lit "local_0"), (1, [])],
          [(0, Text.lit "-> 4"), (2, Text.lit "7"), (3, []), (4, Text.lit "local_0"),
            (5, Text.lit "func:<anonymous>"), (8, [])]] := by
  have hordered : Image.chooser.Ordered := Image.ordered_of_forall (by decide)
  have hne : Image.chooser.functions ≠ [] := by decide
  have hvalid : Image.chooser.validate = .ok () := by decide +kernel
  have hrows : (ofImage .standard .chooser).toOption.map (fun ls => ls.map fun l =>
      l.instructions.map fun row => (row.placed.offset, row.remark.text)) =
        some [[(0, Text.lit "local_0"), (1, [])],
          [(0, Text.lit "-> 4"), (2, Text.lit "7"), (3, []), (4, Text.lit "local_0"),
            (5, Text.lit "func:<anonymous>"), (8, [])]] := by
    decide +kernel
  obtain ⟨ls, hls, hshows, -⟩ := (ofImage_lists .standard hordered hne).1 hvalid
  rw [hls] at hrows
  exact ⟨hordered, hne, hvalid, ls, hls, hshows, Option.some.inj hrows⟩

end Listing
end StackLisp
