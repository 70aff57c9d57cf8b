import StackLisp.Fragment
import StackLisp.Proofs.Encoding

/-! How pieces of code fit together: their instructions, their sizes, and what a push or a return
at their end does to them. -/
namespace StackLisp.Fragment

open Instruction (totalSize)

@[simp] theorem items_append (f g : Fragment) : (f ++ g).items = f.items ++ g.items := rfl

@[simp] theorem landing_append (f g : Fragment) : (f ++ g).landing = g.landing := rfl

@[simp] theorem instructions_append (f g : Fragment) :
    (f ++ g).instructions = f.instructions ++ g.instructions := by
  simp [instructions]

@[simp] theorem instructions_empty : ({} : Fragment).instructions = [] := rfl

@[simp] theorem instructions_instr (i : Instruction) : (instr i).instructions = [i] := rfl

@[simp] theorem landing_instr (i : Instruction) : (instr i).landing = false := rfl

@[simp] theorem instructions_op (o : Opcode) (operands : List Nat) :
    (op o operands).instructions = [⟨o, operands⟩] := rfl

@[simp] theorem instructions_landed (f : Fragment) : f.landed.instructions = f.instructions := rfl

@[simp] theorem landing_landed (f : Fragment) : f.landed.landing = true := rfl

theorem size_eq (f : Fragment) : f.size = totalSize f.instructions := by
  unfold size
  induction f.instructions with
  | nil => rfl
  | cons i is ih => simp [ih]

@[simp] theorem size_append (f g : Fragment) : (f ++ g).size = f.size + g.size := by
  simp [size_eq]

@[simp] theorem size_instr (i : Instruction) : (instr i).size = i.size := by
  simp [size_eq]

@[simp] theorem size_op (o : Opcode) (operands : List Nat) :
    (op o operands).size = 1 + operands.length := by
  simp [size_eq, Instruction.size]

theorem size_jump (o : Opcode) (target : Nat) : (op o [target]).size = jumpSize := by
  rw [size_op]
  rfl

theorem append_assoc (f g h : Fragment) : f ++ g ++ h = f ++ (g ++ h) := by
  change Fragment.mk _ _ = Fragment.mk _ _
  simp

/-- The piece ends with the instruction `i`, behind `front`. -/
def EndsWith (f : Fragment) (front : List Item) (i : Instruction) : Prop :=
  f.items = front ++ [.instr i]

/-- The piece ends with an instruction. -/
def Ends (f : Fragment) : Prop := ∃ front i, f.EndsWith front i

theorem ends_instr (i : Instruction) : (instr i).Ends := ⟨[], i, rfl⟩

theorem ends_op (o : Opcode) (operands : List Nat) : (op o operands).Ends := ⟨[], _, rfl⟩

theorem Ends.append (f : Fragment) {g : Fragment} (h : g.Ends) : (f ++ g).Ends := by
  obtain ⟨front, i, hi⟩ := h
  exact ⟨f.items ++ front, i, by simp [EndsWith, show g.items = _ from hi]⟩

theorem Ends.marked {f : Fragment} (pos : Position) (h : f.Ends) : (f.marked pos).Ends := by
  obtain ⟨front, i, hi⟩ := h
  exact ⟨.mark pos :: front, i, by simp [EndsWith, Fragment.marked, show f.items = _ from hi]⟩

theorem Ends.landed {f : Fragment} (h : f.Ends) : f.landed.Ends := h

theorem EndsWith.instructions_eq {f : Fragment} {front : List Item} {i : Instruction}
    (h : f.EndsWith front i) :
    f.instructions = (⟨front, false⟩ : Fragment).instructions ++ [i] := by
  simp [instructions, show f.items = _ from h]

theorem pushLast_append (front : List Item) (i : Instruction) :
    pushLast (front ++ [.instr i]) =
      i.op.pushForm.map fun op => front ++ [.instr { i with op }] := by
  induction front with
  | nil => simp [pushLast]
  | cons item front ih =>
    have hne : front ++ [Item.instr i] ≠ [] := by simp
    obtain ⟨x, xs, hx⟩ := List.exists_cons_of_ne_nil hne
    rw [List.cons_append, hx, pushLast, ← hx, ih]
    · cases i.op.pushForm <;> simp
    · simp

/-- The two ways to push: the load at the end becomes a load that pushes, or a push follows. -/
theorem EndsWith.pushed_cases {f : Fragment} {front : List Item} {i : Instruction}
    (h : f.EndsWith front i) :
    (f.landing = false ∧ ∃ o, i.op.pushForm = some o ∧
      f.pushed = ⟨front ++ [.instr { i with op := o }], false⟩) ∨
    ((f.landing = true ∨ i.op.pushForm = none) ∧ f.pushed = f ++ op .push) := by
  have hpl := pushLast_append front i
  rw [← show f.items = _ from h] at hpl
  cases hl : f.landing with
  | true => exact .inr ⟨.inl rfl, by simp [pushed, hl]⟩
  | false =>
    cases hp : i.op.pushForm with
    | none => exact .inr ⟨.inr rfl, by simp [pushed, hl, hpl, hp]⟩
    | some o => exact .inl ⟨rfl, o, rfl, by simp [pushed, hl, hpl, hp]⟩

theorem pushed_of_landing {f : Fragment} (h : f.landing = true) : f.pushed = f ++ op .push := by
  simp [pushed, h]

/-- Only the end of a piece decides how it is pushed. -/
theorem pushed_append (f : Fragment) {g : Fragment} (h : g.Ends) :
    (f ++ g).pushed = f ++ g.pushed := by
  obtain ⟨front, i, hi⟩ := h
  have hfg : (f ++ g).EndsWith (f.items ++ front) i := by
    simp [EndsWith, show g.items = _ from hi]
  rcases hi.pushed_cases with ⟨hl, o, ho, hp⟩ | ⟨hn, hp⟩
  · rcases hfg.pushed_cases with ⟨_, o', ho', hp'⟩ | ⟨hn', _⟩
    · have hoo : o' = o := Option.some.inj (ho'.symm.trans ho)
      rw [hp, hp', hoo]
      simp only [List.append_assoc]
      rfl
    · simp [hl, ho] at hn'
  · rcases hfg.pushed_cases with ⟨hl', o', ho', _⟩ | ⟨_, hp'⟩
    · simp [show g.landing = false from hl', ho'] at hn
    · rw [hp, hp', append_assoc]

@[simp] theorem instructions_pushed_marked (pos : Position) {f : Fragment} (h : f.Ends) :
    (f.marked pos).pushed.instructions = f.pushed.instructions := by
  have hm : f.marked pos = (⟨[.mark pos], false⟩ : Fragment) ++ f := rfl
  rw [hm, pushed_append _ h, instructions_append]
  rfl

theorem returning_of_terminated {f : Fragment} (h : f.terminated = true) : f.returning = f := by
  simp [returning, h]

theorem returning_of_not_terminated {f : Fragment} (h : f.terminated = false) :
    f.returning = f ++ op .ret := by
  simp [returning, h]

theorem EndsWith.terminated_eq {f : Fragment} {front : List Item} {i : Instruction}
    (h : f.EndsWith front i) : f.terminated = (!f.landing && i.op.isTerminal) := by
  simp [terminated, h.instructions_eq]

/-- Only the end of a piece decides whether a return is needed. -/
theorem returning_append (f : Fragment) {g : Fragment} (h : g.Ends) :
    (f ++ g).returning = f ++ g.returning := by
  obtain ⟨front, i, hi⟩ := h
  have hfg : (f ++ g).EndsWith (f.items ++ front) i := by
    simp [EndsWith, show g.items = _ from hi]
  have ht : (f ++ g).terminated = g.terminated := by
    rw [hi.terminated_eq, hfg.terminated_eq, landing_append]
  cases hg : g.terminated with
  | true => rw [returning_of_terminated (ht.trans hg), returning_of_terminated hg]
  | false =>
    rw [returning_of_not_terminated (ht.trans hg), returning_of_not_terminated hg, append_assoc]

@[simp] theorem instructions_returning_marked (pos : Position) {f : Fragment} (h : f.Ends) :
    (f.marked pos).returning.instructions = f.returning.instructions := by
  have hm : f.marked pos = (⟨[.mark pos], false⟩ : Fragment) ++ f := rfl
  rw [hm, returning_append _ h, instructions_append]
  rfl

theorem pushed_append_instr (f : Fragment) {i : Instruction} (h : i.op.pushForm = none) :
    (f ++ instr i).pushed = f ++ instr i ++ op .push := by
  have hend : (f ++ instr i).EndsWith f.items i := rfl
  rcases hend.pushed_cases with ⟨-, o', ho', -⟩ | ⟨-, hp⟩
  · simp [h] at ho'
  · exact hp

theorem returning_append_instr (f : Fragment) {i : Instruction} (h : i.op.isTerminal = false) :
    (f ++ instr i).returning = f ++ instr i ++ op .ret := by
  have hend : (f ++ instr i).EndsWith f.items i := rfl
  exact returning_of_not_terminated (by simp [hend.terminated_eq, h])

theorem returning_of_landing {f : Fragment} (h : f.landing = true) :
    f.returning = f ++ op .ret :=
  returning_of_not_terminated (by simp [terminated, h])

/-- A piece that returns ends with an instruction that control does not pass. -/
theorem Ends.returning_terminal {f : Fragment} (h : f.Ends) :
    ∃ i, f.returning.instructions.getLast? = some i ∧ i.op.isTerminal = true := by
  cases ht : f.terminated with
  | true =>
    obtain ⟨front, i, hi⟩ := h
    rw [returning_of_terminated ht]
    rw [hi.terminated_eq, Bool.and_eq_true] at ht
    exact ⟨i, by simp [hi.instructions_eq], ht.2⟩
  | false =>
    rw [returning_of_not_terminated ht]
    exact ⟨⟨.ret, []⟩, by simp, rfl⟩

end StackLisp.Fragment
