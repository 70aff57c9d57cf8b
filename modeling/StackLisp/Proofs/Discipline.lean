import StackLisp.Proofs.Flow
import StackLisp.Proofs.References

/-! Stack discipline of the compiled code, by induction on the rules of emission. -/
namespace StackLisp

open Fragment (op instr jumpSize)

namespace Instruction

theorem pops_callConst (k n : Nat) : (indexed .callConst k [n]).pops = n := by
  by_cases h : k < 8 <;> simp [indexed, pops, h]

theorem calls_callConst (k n : Nat) : (indexed .callConst k [n]).Calls := by
  by_cases h : k < 8 <;> constructor <;>
    simp [indexed, h, Opcode.isTerminal, Opcode.isJump, Opcode.pushForm, Family.pushForm, pushes,
      slot?, Family.isSlot]

theorem indexed_flow (f : Family) (k : Nat) :
    (indexed f k).op.isTerminal = false ∧ (indexed f k).op.isJump = false ∧
      (indexed f k).pops = 0 := by
  by_cases h : k < 8 <;> cases f <;>
    simp [indexed, h, Opcode.isTerminal, Opcode.isJump, pops]

theorem pushes_indexed_of_pushForm {f f' : Family} (h : f.pushForm = some f') (k : Nat) :
    (indexed f k).pushes = 0 ∧ (indexed f' k).pushes = 1 := by
  by_cases hk : k < 8 <;> cases f <;> cases h <;> simp [indexed, hk, pushes]

end Instruction

namespace Fragment

variable {floor base depth : Nat}

/-- A load from the slots or the pool, in the form that does not push. -/
theorem steady_indexed {f f' : Family} {k : Nat} (hf : f.pushForm = some f')
    (hslot : f.isSlot = true → k < depth) (hfloor : floor ≤ depth) :
    (instr (.indexed f k)).Steady floor base depth := by
  obtain ⟨ht, hj, hpops⟩ := Instruction.indexed_flow f k
  refine steady_load ht hj hpops (Instruction.pushes_indexed_of_pushForm hf k).1 ?_ hfloor
  intro s hs
  rw [Instruction.slot?_indexed] at hs
  split at hs
  · next h =>
    cases hs
    exact hslot h
  · cases hs

/-- An instruction without operands that only writes the register. -/
theorem steady_op {o : Opcode} (ht : o.isTerminal = false) (hj : o.isJump = false)
    (hpops : (⟨o, []⟩ : Instruction).pops = 0) (hpushes : (⟨o, []⟩ : Instruction).pushes = 0)
    (hslot : (⟨o, []⟩ : Instruction).slot? = none) (hfloor : floor ≤ depth) :
    (op o).Steady floor base depth :=
  steady_load ht hj hpops hpushes (by simp [hslot]) hfloor

end Fragment

namespace Lower

variable {floor base depth : Nat} {ctx : Context} {pos : Position} {d d' : Draft} {f : Fragment}

theorem Yields.load_steady {v : Value} (h : Yields (load ctx pos v) d f d')
    (hfloor : floor ≤ depth) : f.Steady floor base depth := by
  rcases yields_load.1 h with ⟨o, ho, rfl, -⟩ | ⟨-, i, -, rfl⟩
  · cases v with
    | unit | bool b =>
      unfold immediate at ho
      split at ho <;> cases ho <;> exact Fragment.steady_op rfl rfl rfl rfl rfl hfloor
    | _ => cases ho
  · exact Fragment.steady_indexed rfl (by simp [Family.isSlot]) hfloor

theorem Yields.loadName_steady {name : Bytes} (h : Yields (loadName ctx pos name) d f d')
    (hframe : ctx.frame.Below depth) (hfloor : floor ≤ depth) : f.Steady floor base depth := by
  rcases yields_loadName h with ⟨s, hs, rfl, -⟩ | ⟨v, -, hv⟩ | ⟨-, -, -, i, -, rfl⟩
  · have hlt : s < depth := hframe.slot (Context.lookup_eq_slot.1 hs)
    exact Fragment.steady_indexed rfl (fun _ => hlt) hfloor
  · exact hv.load_steady hfloor
  · exact Fragment.steady_indexed rfl (by simp [Family.isSlot]) hfloor

theorem callBuiltin_calls (b : Builtin) (argc : Nat) :
    ∃ i : Instruction, callBuiltin b argc = instr i ∧ i.Calls ∧ i.pops = argc := by
  unfold callBuiltin
  split
  · next h =>
    exact ⟨_, rfl, ⟨rfl, rfl, rfl, rfl, rfl⟩, h.2.symm⟩
  · exact ⟨_, rfl, ⟨rfl, rfl, rfl, rfl, rfl⟩, rfl⟩

theorem steady_callBuiltin {a : Fragment} (b : Builtin) {argc : Nat}
    (ha : a.Passes floor base depth (depth + argc)) (hfloor : floor ≤ depth) :
    (a ++ callBuiltin b argc).Steady floor base depth := by
  obtain ⟨i, hi, hcalls, hpops⟩ := callBuiltin_calls b argc
  rw [hi]
  exact Fragment.Passes.steady_call hcalls (by rwa [hpops]) hfloor

theorem passes_captureLoads {captured : List (Bytes × Nat)} (hslots : ∀ c ∈ captured, c.2 < depth)
    (hfloor : floor ≤ depth) :
    (captureLoads captured).Passes floor base depth (depth + captured.length) := by
  induction captured generalizing base depth with
  | nil => exact Fragment.passes_empty
  | cons c rest ih =>
    have hload : (instr (.indexed .loadPush c.2)).Passes floor base depth (depth + 1) := by
      obtain ⟨ht, hj, hpops⟩ := Instruction.indexed_flow .loadPush c.2
      have hpushes := (Instruction.pushes_indexed_of_pushForm (f := .load) rfl c.2).2
      have h : (instr (.indexed .loadPush c.2)).Passes floor base depth _ :=
        Fragment.passes_instr ht hj (by rw [hpops]; exact hfloor) (by
          simpa [Instruction.slot?_indexed, Family.isSlot] using hslots c List.mem_cons_self)
      rwa [Instruction.depthAfter, hpops, hpushes] at h
    have hrest : (captureLoads rest).Passes floor (base + (instr (.indexed .loadPush c.2)).size)
        (depth + 1) (depth + 1 + rest.length) :=
      ih (fun c' hc' => Nat.lt_succ_of_lt (hslots c' (List.mem_cons_of_mem _ hc'))) (by omega)
    have h := hload.append hrest
    rwa [Nat.add_right_comm] at h

theorem steady_loadFunction {captured : List (Bytes × Nat)} {i : Nat}
    (hslots : ∀ c ∈ captured, c.2 < depth) (hfloor : floor ≤ depth) :
    (loadFunction captured i).Steady floor base depth := by
  unfold loadFunction
  split
  · exact Fragment.steady_indexed rfl (by simp [Family.isSlot]) hfloor
  · exact Fragment.Passes.steady_call ⟨rfl, rfl, rfl, rfl, rfl⟩
      (passes_captureLoads hslots hfloor) hfloor

end Lower

/-- A call of the function itself: `last` in its last place and `other` in all others. -/
theorem Fragment.Passes.flows_self {floor base depth n : Nat} {a : Fragment} {last other : Opcode}
    (use : Use) (ha : a.Passes floor base depth (depth + n)) (hfloor : floor ≤ depth)
    (hlast : (⟨last, [n]⟩ : Instruction).pops = n) (hother : (⟨other, [n]⟩ : Instruction).pops = n)
    (ht : last.isTerminal = true) (hslot : (⟨last, [n]⟩ : Instruction).slot? = none)
    (hcalls : (⟨other, [n]⟩ : Instruction).Calls) :
    (a ++ op (if use = .tail then last else other) [n]).Flows floor use base depth := by
  by_cases huse : use = .tail
  · subst huse
    exact Passes.finishes_call (i := ⟨last, [n]⟩) (by rwa [hlast]) ht hslot hfloor
  · rw [if_neg huse]
    exact (Passes.steady_call hcalls (by rwa [hother]) hfloor).flows _

/-- What the code of a part does to the stack. -/
def Part.Flows (floor : Nat) (use : Use) (base depth : Nat) (f : Fragment) : Part → Prop
  | .arguments es => f.Passes floor base depth (depth + es.length)
  | .spread es => f.Passes floor base depth (depth + (es.length - 1))
  | .values bs => f.Passes floor base depth (depth + bs.length)
  | .function .. => f.Steady floor base depth
  | _ => f.Flows floor use base depth

namespace Emits

variable {floor : Nat} {ctx : Context} {use : Use} {base depth : Nat} {part : Part} {d d' : Draft}
  {f : Fragment}

open Fragment Lower

theorem below_bind (h : ctx.frame.Below depth) (bs : List (Binding Expr)) :
    (ctx.bind depth (bs.map Binding.name)).frame.Below (depth + bs.length) :=
  Frame.Below.bind (h.mono (Nat.le_add_right _ _)) fun _ => by simp

/-- Emitted code keeps the stack as its part demands. -/
theorem flows (h : Emits ctx use base depth part d f d') (hframe : ctx.frame.Below depth)
    (hfloor : floor ≤ depth) : part.Flows floor use base depth f := by
  induction h with
  | literal hy | callFolded _ _ _ _ hy => exact (hy.load_steady hfloor).flows _
  | ident hy => exact (hy.loadName_steady hframe hfloor).flows _
  | marked _ hf ih => exact Flows.marked (ih hframe hfloor) (hf.ends rfl) _
  | negation _ _ ih | otherwiseSome _ ih | sequenceOne _ ih | operandsOne _ ih
  | operandAt _ _ ih => exact ih hframe hfloor
  | block _ ih | and _ _ ih | or _ _ ih | condTrue _ _ ih | condFalse _ _ ih =>
    exact Flows.of_last (ih hframe hfloor)
  | callOperand _ _ _ _ _ _ ih | lambda _ ih => exact Steady.flows (ih hframe hfloor) _
  | spreadOne _ ih => exact Steady.passes (ih hframe hfloor)
  | callSelf _ _ _ _ ih =>
    exact Passes.flows_self _ (ih hframe hfloor) hfloor rfl rfl rfl rfl ⟨rfl, rfl, rfl, rfl, rfl⟩
  | applySelf _ _ _ _ _ ih =>
    exact Passes.flows_self _ (ih hframe hfloor) hfloor rfl rfl rfl rfl ⟨rfl, rfl, rfl, rfl, rfl⟩
  | callNamed _ _ _ _ _ ih =>
    refine (Passes.steady_call (Instruction.calls_callConst _ _) ?_ hfloor).flows _
    rw [Instruction.pops_callConst]
    exact ih hframe hfloor
  | callUnary _ _ _ _ _ _ ih =>
    exact (steady_callBuiltin _ (Steady.pushes (ih hframe hfloor)) hfloor).flows _
  | callStep _ _ _ _ hs _ ih =>
    have hf := Steady.passes (ih hframe hfloor)
    rcases shortcut?_step hs with rfl | rfl <;>
      exact (Passes.steady_call ⟨rfl, rfl, rfl, rfl, rfl⟩ hf hfloor).flows _
  | callPlain _ _ _ _ _ _ ih => exact (steady_callBuiltin _ (ih hframe hfloor) hfloor).flows _
  | callComputed _ _ _ _ ih₁ ih₂ | applyComputed _ _ _ _ _ _ ih₁ ih₂ =>
    have hf := Steady.pushes (ih₁ hframe hfloor)
    have ha := hf.append (ih₂ (hframe.mono (Nat.le_succ _)) (Nat.le_succ_of_le hfloor))
    rw [Nat.add_right_comm, Nat.add_assoc] at ha
    exact (Passes.steady_call ⟨rfl, rfl, rfl, rfl, rfl⟩ ha hfloor).flows _
  | condTail _ _ _ htarget _ hn ih₁ ih₂ ih₃ =>
    exact finishes_cond hfloor (ih₁ hframe hfloor) (ih₂ hframe hfloor) htarget (hn.ends rfl)
      (ih₃ hframe hfloor)
  | condValue _ _ _ _ htarget _ _ _ ih₁ ih₂ ih₃ =>
    have hy := Steady.passes (ih₂ hframe hfloor)
    have hn := Steady.passes (ih₃ hframe hfloor)
    refine Steady.flows (Passes.steady_landed ?_ hfloor) _
    exact passes_cond hfloor (ih₁ hframe hfloor) hy htarget hn
  | letTail _ hb ih₁ ih₂ =>
    exact Passes.finishes_append (ih₁ hframe hfloor) (hb.ends rfl)
      (ih₂ (below_bind hframe _) (Nat.le_add_right_of_le hfloor))
  | letValue _ _ hb ih₁ ih₂ =>
    exact (steady_let (hb.ends rfl) hfloor (ih₁ hframe hfloor)
      (ih₂ (below_bind hframe _) (Nat.le_add_right_of_le hfloor))).flows _
  | andEmpty | orEmpty | otherwiseNone | sequenceNil | operandAtNone =>
    exact (steady_op rfl rfl rfl rfl rfl hfloor).flows _
  | function _ hc =>
    subst hc
    exact steady_loadFunction (fun c hc => hframe.slot (mem_capturedBy.1 hc).2.2) hfloor
  | sequenceCons _ _ hg ih₁ ih₂ =>
    exact Flows.sequence (hg.ends rfl) (Steady.passes (ih₁ hframe hfloor)) (ih₂ hframe hfloor)
  | operandsCons _ _ _ hstop _ ih₁ ih₂ =>
    exact Flows.operands hfloor (Steady.passes (ih₁ hframe hfloor)) hstop (ih₂ hframe hfloor)
  | argumentsNil | valuesNil => exact passes_empty
  | argumentsCons _ _ ih₁ ih₂ | valuesCons _ _ _ ih₁ ih₂ =>
    have hf := Steady.pushes (ih₁ hframe hfloor)
    have h := hf.append (ih₂ (hframe.mono (Nat.le_succ _)) (Nat.le_succ_of_le hfloor))
    rwa [Nat.add_right_comm] at h
  | @spreadCons _ _ _ _ rest _ _ _ _ _ hne _ _ ih₁ ih₂ =>
    have hf := Steady.pushes (ih₁ hframe hfloor)
    have h := hf.append (ih₂ (hframe.mono (Nat.le_succ _)) (Nat.le_succ_of_le hfloor))
    have hpos : 0 < rest.length := List.length_pos_iff.2 hne
    rwa [Nat.add_assoc, Nat.add_sub_cancel' hpos] at h

end Emits
end StackLisp
