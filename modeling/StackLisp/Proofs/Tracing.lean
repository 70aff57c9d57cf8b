import StackLisp.Proofs.Assembly
import StackLisp.Proofs.Scoping

/-! What pieces of code read. The reads of a piece do not depend on what was read before it, so that
they are put together from the reads of its parts. -/
namespace StackLisp

open Fragment (op instr)
open Lower (Yields)

theorem Instruction.captureCount_of_silent {i : Instruction} (h : i.poolIndex? = none) :
    i.captureCount = 0 := by
  unfold captureCount
  split
  · next hop hoperands => simp [poolIndex?, hop, hoperands] at h
  · rfl

namespace Tracer

/-- What an instruction reads that captures nothing. -/
def readsBy (σ : Tracer) (i : Instruction) : List Read :=
  match i.slot? with
  | some s => [.variable (σ.inSlot s)]
  | none =>
    match i.poolIndex?.bind (σ.pool[·]?) with
    | some (.function j) => [.function (σ.nested j [])]
    | _ => []

variable {σ : Tracer} {t : Trace} {i : Instruction}

theorem all_step (h : i.captureCount = 0) : (σ.step t i).all = t.all ++ σ.readsBy i := by
  unfold step readsBy
  cases i.slot? with
  | some s => by_cases hpush : i.op.family? = some .loadPush <;> simp [hpush, Trace.all]
  | none =>
    cases i.poolIndex?.bind (σ.pool[·]?) with
    | none => simp [Trace.all]
    | some c => cases c <;> simp [Trace.all, h]

theorem readsBy_of_silent (hs : i.slot? = none) (hp : i.poolIndex? = none) : σ.readsBy i = [] := by
  simp [readsBy, hs, hp]

theorem readsBy_of_value {k : Nat} {v : Value} (hs : i.slot? = none) (hp : i.poolIndex? = some k)
    (hk : σ.pool[k]? = some (.value v)) : σ.readsBy i = [] := by
  simp [readsBy, hs, hp, hk]

/-- A load that also pushes reads the same. -/
theorem all_step_pushForm {o : Opcode} (h : i.op.pushForm = some o) :
    (σ.step t { i with op := o }).all = (σ.step t i).all := by
  obtain ⟨op, operands⟩ := i
  have hcount : (⟨op, operands⟩ : Instruction).captureCount = 0 ∧
      (⟨o, operands⟩ : Instruction).captureCount = 0 := by
    cases op with
    | wide f | compact f k =>
      obtain ⟨f', -, rfl⟩ := Option.map_eq_some_iff.1 h
      exact ⟨rfl, rfl⟩
    | unit | truth | falsity =>
      cases h
      exact ⟨rfl, rfl⟩
    | _ => cases h
  have hreads : σ.readsBy ⟨o, operands⟩ = σ.readsBy ⟨op, operands⟩ := by
    cases op with
    | wide f | compact f k =>
      obtain ⟨f', hf, rfl⟩ := Option.map_eq_some_iff.1 h
      cases f <;> cases hf <;> rfl
    | unit | truth | falsity =>
      cases h
      rfl
    | _ => cases h
  rw [all_step hcount.1, all_step hcount.2, hreads]

end Tracer

namespace Fragment

/-- The piece reads `rs`, whatever was read before it. -/
def Reads (σ : Tracer) (f : Fragment) (rs : List Read) : Prop :=
  ∀ t, (f.instructions.foldl σ.step t).all = t.all ++ rs

variable {σ : Tracer} {f g : Fragment} {rs rs' : List Read}

theorem reads_empty : ({} : Fragment).Reads σ [] := fun t => by simp

theorem Reads.append (hf : f.Reads σ rs) (hg : g.Reads σ rs') :
    (f ++ g).Reads σ (rs ++ rs') := by
  intro t
  rw [instructions_append, List.foldl_append, hg, hf, List.append_assoc]

theorem reads_instr {i : Instruction} (h : i.captureCount = 0) :
    (instr i).Reads σ (σ.readsBy i) :=
  fun _ => Tracer.all_step h

/-- An instruction without slot and constant reads nothing. -/
theorem reads_op {o : Opcode} {operands : List Nat}
    (hs : (⟨o, operands⟩ : Instruction).slot? = none)
    (hp : (⟨o, operands⟩ : Instruction).poolIndex? = none) : (op o operands).Reads σ [] := by
  have h := reads_instr (σ := σ) (Instruction.captureCount_of_silent hp)
  rwa [Tracer.readsBy_of_silent hs hp] at h

theorem Reads.append_silent (hf : f.Reads σ rs) (hg : g.Reads σ []) : (f ++ g).Reads σ rs := by
  simpa using hf.append hg

theorem Reads.pushed (h : f.Reads σ rs) (he : f.Ends) : f.pushed.Reads σ rs := by
  obtain ⟨front, i, hi⟩ := he
  rcases hi.pushed_cases with ⟨-, o, ho, hp⟩ | ⟨-, hp⟩
  · intro t
    have hlast : f.pushed.EndsWith front { i with op := o } := by rw [hp]; rfl
    have hf := h t
    rw [hi.instructions_eq, List.foldl_append] at hf
    rw [hlast.instructions_eq, List.foldl_append]
    exact (Tracer.all_step_pushForm ho).trans hf
  · rw [hp]
    exact h.append_silent (reads_op rfl rfl)

theorem Reads.returning (h : f.Reads σ rs) : f.returning.Reads σ rs := by
  unfold Fragment.returning
  split
  · exact h
  · exact h.append_silent (reads_op rfl rfl)

theorem reads_skips (count : Nat) : (⟨skips count, false⟩ : Fragment).Reads σ [] := by
  fun_induction skips count with
  | case1 => exact reads_empty
  | case2 count _ ih =>
    have hskip : (op .skip [min count 255]).Reads σ [] := reads_op rfl rfl
    exact hskip.append_silent ih

theorem Reads.skipping (h : f.Reads σ rs) (count : Nat) : (f.skipping count).Reads σ rs := by
  unfold Fragment.skipping
  split
  · exact h
  · exact h.append_silent (reads_skips count)

end Fragment

namespace Lower

variable {σ : Tracer} {ctx : Context} {pos : Position} {d d' : Draft} {f : Fragment}

theorem captureCount_indexed (f : Family) (k : Nat) (extra : List Nat) :
    (Instruction.indexed f k extra).captureCount = 0 := by
  by_cases h : k < 8 <;> simp [Instruction.indexed, Instruction.captureCount, h]

theorem reads_slot {g : Family} (s : Nat) (hg : g.isSlot = true) :
    (instr (.indexed g s)).Reads σ [.variable (σ.inSlot s)] := by
  have h := Fragment.reads_instr (σ := σ) (captureCount_indexed g s [])
  rwa [Tracer.readsBy, Instruction.slot?_indexed, if_pos hg] at h

/-- An instruction that addresses a value reads no variable. -/
theorem reads_constant {g : Family} {k : Nat} {extra : List Nat} {v : Value}
    (hg : g.isSlot = false) (hk : σ.pool[k]? = some (.value v)) :
    (instr (.indexed g k extra)).Reads σ [] := by
  have h := Fragment.reads_instr (σ := σ) (captureCount_indexed g k extra)
  rwa [Tracer.readsBy_of_value (by rw [Instruction.slot?_indexed]; simp [hg])
    (by rw [Instruction.poolIndex?_indexed]; simp [hg]) hk] at h

theorem reads_callBuiltin (b : Builtin) (argc : Nat) : (callBuiltin b argc).Reads σ [] := by
  unfold callBuiltin
  split <;> exact Fragment.reads_op rfl rfl

theorem reads_branch (taken : Bool) (target : Nat) :
    (op (branchOn taken) [target]).Reads σ [] := by
  cases taken <;> exact Fragment.reads_op rfl rfl

theorem Yields.load_reads {v : Value} (h : Yields (load ctx pos v) d f d')
    (hpool : d'.pool <+: σ.pool) : f.Reads σ [] := by
  rcases yields_load.1 h with ⟨o, ho, rfl, -⟩ | ⟨-, i, hi, rfl⟩
  · unfold immediate at ho
    split at ho <;> cases ho <;> exact Fragment.reads_op rfl rfl
  · exact reads_constant rfl (hpool.getElem?_eq_some hi.interned.1)

/-- A name is read as a variable exactly if it has a slot. -/
theorem Yields.loadName_reads {name : Bytes} (h : Yields (loadName ctx pos name) d f d')
    (hpool : d'.pool <+: σ.pool) :
    f.Reads σ (((ctx.frame.slot? name).map σ.inSlot).toList.map .variable) := by
  rcases yields_loadName h with ⟨s, hs, rfl, -⟩ | ⟨v, hv, hload⟩ | ⟨hs, -, -, i, hi, rfl⟩
  · rw [Context.lookup_eq_slot.1 hs]
    exact reads_slot s rfl
  · have hnone : ctx.frame.slot? name = none := by
      cases hn : ctx.frame.slot? name with
      | none => rfl
      | some s => simp [Context.lookup_eq_slot.2 hn] at hv
    rw [hnone]
    exact hload.load_reads hpool
  · have hnone : ctx.frame.slot? name = none :=
      Option.eq_none_iff_forall_ne_some.2 fun s hn => hs s (Context.lookup_eq_slot.2 hn)
    rw [hnone]
    exact reads_constant rfl (hpool.getElem?_eq_some hi.interned.1)

/-- The loads in front of a closure are kept apart. -/
theorem foldl_captureLoads (captured : List (Bytes × Nat)) (t : Trace) :
    (captureLoads captured).instructions.foldl σ.step t =
      { t with pushed := t.pushed ++ captured.map fun c => σ.inSlot c.2 } := by
  have hload (s : Nat) (t : Trace) : σ.step t (.indexed .loadPush s) =
      { t with pushed := t.pushed ++ [σ.inSlot s] } := by
    by_cases hk : s < 8 <;>
      simp [Tracer.step, Instruction.indexed, Instruction.slot?, Opcode.family?, Family.isSlot, hk]
  induction captured generalizing t with
  | nil => simp [captureLoads, Fragment.instructions]
  | cons c captured ih =>
    have hcons : (captureLoads (c :: captured)).instructions =
        .indexed .loadPush c.2 :: (captureLoads captured).instructions := rfl
    rw [hcons, List.foldl_cons, hload, ih]
    simp

/-- Loading a function captures the variables in the captured slots. -/
theorem reads_loadFunction (captured : List (Bytes × Nat)) {i j : Nat}
    (hi : σ.pool[i]? = some (.function j)) :
    (loadFunction captured i).Reads σ
      [.function (σ.nested j (captured.map fun c => σ.inSlot c.2))] := by
  unfold loadFunction
  split
  · next hnil =>
    have h := Fragment.reads_instr (σ := σ) (captureCount_indexed .const i [])
    rw [Tracer.readsBy, Instruction.slot?_indexed, Instruction.poolIndex?_indexed] at h
    simpa [Family.isSlot, hi, hnil] using h
  · intro t
    rw [Fragment.instructions_append, List.foldl_append, foldl_captureLoads]
    simp [Tracer.step, Instruction.slot?, Instruction.poolIndex?, Instruction.captureCount, hi,
      Trace.all]

end Lower

theorem Instruction.foldl_placeFrom {α : Type} (g : α → Instruction → α) (is : List Instruction)
    (offset : Nat) (a : α) :
    (placeFrom offset is).foldl (fun a p => g a p.instr) a = is.foldl g a := by
  induction is generalizing offset a with
  | nil => rfl
  | cons i is ih => exact ih _ _

namespace Image

/-- How the function at index `i` is traced when it has captured the given variables. -/
def tracer (img : Image) (i : Nat) (f : Function) (captured : List Variable) : Tracer where
  pool := f.constants
  inSlot := .inSlot f.params.toNat captured
  nested j vs := if j < i then img.readsOf j vs else []

/-- The reads of a function are those of the piece of code that it was made from. -/
theorem readsOf_eq {img : Image} {i : Nat} {f : Function} {captured : List Variable}
    {earlier : List Function} {g : Fragment} {rs : List Read} (hi : img.functions[i]? = some f)
    (hbuilt : f.Built earlier g.instructions) (hg : g.Reads (img.tracer i f captured) rs) :
    img.readsOf i captured = rs := by
  have hdecode : Instruction.decode f.bytes = .ok (Instruction.placeFrom 0 g.instructions) := by
    rw [Instruction.decode, hbuilt.decodeFrom_bytes]
  rw [readsOf, show img.get? i = some f from hi]
  simp only [hdecode]
  exact (congrArg Trace.all (Instruction.foldl_placeFrom _ _ _ _)).trans (hg {})

end Image
end StackLisp
