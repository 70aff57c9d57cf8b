import StackLisp.Proofs.Assembly

/-! The depth of the stack on every way through the code of a compiled function. -/
namespace StackLisp

open Instruction (Placed placeFrom)

namespace Instruction

/-- Control comes to an offset of the code `ps` with the given depth of the stack, when the code is
entered at its start with the depth `base`. -/
inductive Reaches (ps : List Placed) (base : Nat) : Nat → Nat → Prop where
  | entry : Reaches ps base 0 base
  | edge {p t depth} : Reaches ps base p.offset depth → p ∈ ps → t ∈ p.successors →
      Reaches ps base t (p.instr.depthAfter depth)

theorem eq_of_offset {offset : Nat} {is : List Instruction} {p q : Placed}
    (hp : p ∈ placeFrom offset is) (hq : q ∈ placeFrom offset is) (h : p.offset = q.offset) :
    p = q := by
  induction is generalizing offset with
  | nil => simp [placeFrom] at hp
  | cons i is ih =>
    have hpos := i.size_pos
    have behind {r : Placed} (hr : r ∈ placeFrom (offset + i.size) is) : offset < r.offset := by
      have := (mem_placeFrom_bounds hr).1
      omega
    rw [placeFrom, List.mem_cons] at hp hq
    rcases hp with rfl | hp <;> rcases hq with rfl | hq
    · rfl
    · exact absurd h (Nat.ne_of_lt (behind hq))
    · exact absurd h.symm (Nat.ne_of_lt (behind hp))
    · exact ih hp hq

end Instruction

open Instruction (Reaches)

/-- The function `f`, whose code has the instructions `ps`, keeps the stack above its `base` values
in order: its parameters and what it captures. Each instruction has its depth in `δ`, except that
returns are reached with several. -/
structure Function.Disciplined (f : Function) (ps : List Placed) (base : Nat) (δ : Nat → Nat) :
    Prop where
  decodes : Instruction.decode f.bytes = .ok ps
  frame : (base : Int) = f.params + f.captures
  entry : δ 0 = base
  placed : ∀ o k, Reaches ps base o k → ∃ p ∈ ps, p.offset = o
  joins : ∀ p ∈ ps, ∀ k, Reaches ps base p.offset k → p.instr.op ≠ .ret → k = δ p.offset
  room : ∀ p ∈ ps, ∀ k, Reaches ps base p.offset k → base + p.instr.pops ≤ k
  slots : ∀ p ∈ ps, ∀ k s, Reaches ps base p.offset k → p.instr.slot? = some s → s < k

namespace Carries

variable {base : Nat} {is : List Instruction} {δ : Nat → Nat}

/-- What holds whenever control comes to an instruction; a step keeps it. -/
theorem reached (hne : is ≠ []) (hentry : δ 0 = base)
    (hkeep : ∀ p ∈ placeFrom 0 is, p.Keeps base δ (fun _ _ => False) (placeFrom 0 is)) {o k : Nat}
    (h : Reaches (placeFrom 0 is) base o k) :
    ∃ p ∈ placeFrom 0 is, p.offset = o ∧ base ≤ k ∧ (p.instr.op = .ret ∨ k = δ o) := by
  induction h with
  | entry =>
    obtain ⟨p, hp, ho⟩ := head_placed hne 0
    exact ⟨p, hp, ho, Nat.le_refl _, .inr hentry.symm⟩
  | @edge p t depth _ hp ht ih =>
    obtain ⟨p', hp', ho, -, hdepth⟩ := ih
    obtain rfl := Instruction.eq_of_offset hp' hp ho
    have hδ : depth = δ p'.offset := by
      refine hdepth.resolve_left fun hret => ?_
      simp [Placed.successors, hret, Opcode.isTerminal] at ht
    obtain ⟨hroom, -, hedge⟩ := hkeep p' hp
    obtain ⟨q, hq, hqt, hqd⟩ := (hedge t ht).2.resolve_left id
    refine ⟨q, hq, hqt, ?_, ?_⟩
    · rw [hδ, Instruction.depthAfter]
      omega
    · rw [hδ]
      exact hqd.imp id Eq.symm

end Carries

theorem Function.Built.disciplined {f : Function} {earlier : List Function}
    {is : List Instruction} (h : f.Built earlier is) :
    ∃ base δ, f.Disciplined (placeFrom 0 is) base δ := by
  obtain ⟨base, hframe, δ, -, hentry, hkeep⟩ := h.flow
  have hne : is ≠ [] := by
    obtain ⟨i, hi, -⟩ := h.last
    rintro rfl
    cases hi
  have reached {p : Placed} (hp : p ∈ placeFrom 0 is) {k : Nat}
      (hk : Reaches (placeFrom 0 is) base p.offset k) :
      base ≤ k ∧ (p.instr.op = .ret ∨ k = δ p.offset) := by
    obtain ⟨q, hq, ho, hle, hdepth⟩ := Carries.reached hne (hentry hne) hkeep hk
    obtain rfl := Instruction.eq_of_offset hq hp ho
    exact ⟨hle, hdepth⟩
  refine ⟨base, δ, ?_, hframe, hentry hne, ?_, ?_, ?_, ?_⟩
  · rw [h.code]
    exact Instruction.decode_encode fun i hi => (h.sound i hi).fits
  · intro o k hk
    obtain ⟨p, hp, ho, -⟩ := Carries.reached hne (hentry hne) hkeep hk
    exact ⟨p, hp, ho⟩
  · intro p hp k hk hret
    exact (reached hp hk).2.resolve_left hret
  · intro p hp k hk
    obtain ⟨hle, hret | rfl⟩ := reached hp hk
    · simpa [Instruction.pops, hret] using hle
    · exact (hkeep p hp).room
  · intro p hp k s hk hs
    obtain ⟨-, hret | rfl⟩ := reached hp hk
    · simp [Instruction.slot?, hret] at hs
    · exact (hkeep p hp).slot s hs

/-- Every function that compilation makes keeps the stack in order. -/
theorem Compilation.compile_disciplined {options : CompileOptions} {env : Environment}
    {forms : List Expr} {c : Compilation} (h : compile options env forms = .ok c) :
    ∀ img ∈ c.images, ∀ f ∈ img.functions, ∃ ps base δ, f.Disciplined ps base δ := by
  intro img himg f hf
  obtain ⟨k, hk⟩ := List.mem_iff_getElem?.1 himg
  obtain ⟨e, ctx, -, hform⟩ := (compiles_compile h).2 k img hk
  obtain ⟨j, hj⟩ := List.mem_iff_getElem?.1 hf
  obtain ⟨is, his⟩ := hform.assembled.built hj
  exact ⟨_, his.disciplined⟩

/-- `(define f (lambda (a) (or a (let ((b a)) b))))`: the return is reached with one and with two
values on the stack. -/
def Expr.alternative : Expr :=
  .define {} [102] (.lambda {} [] [[97]]
    [.or {} [.ident {} [97], .letIn {} [⟨[98], {}, .ident {} [97]⟩] [.ident {} [98]]]])

theorem Compilation.alternative_disciplined :
    ∃ c, compile {} {} [.alternative] = .ok c ∧
      c.images.map (fun img => img.functions.map Function.bytes)
        = [[[2, 74, 5, 11, 3, 87], [21, 71, 0, 87]]] ∧
      ∀ img ∈ c.images, ∀ f ∈ img.functions, ∃ ps base δ, f.Disciplined ps base δ := by
  have h : compile {} {} [.alternative] = .ok _ := rfl
  exact ⟨_, h, rfl, compile_disciplined h⟩

end StackLisp
