import StackLisp.Proofs.Assembly

/-! Every compiled function is well formed. -/
namespace StackLisp

open Instruction (Placed placeFrom)

/-- The function `f` of an image is well formed, with `ps` the instructions of its code: control
moves forward to instructions only and does not pass the last one, and every constant that an
instruction addresses is there and of the kind that it needs. -/
structure Image.WellFormed (img : Image) (f : Function) (ps : List Placed) : Prop where
  decodes : Instruction.decode f.bytes = .ok ps
  encodes : Instruction.encode (ps.map Placed.instr) = f.bytes
  jumps : ∀ p ∈ ps, ∀ t, p.instr.target? = some t →
    p.offset < t ∧ t < f.bytes.length ∧ ∃ q ∈ ps, q.offset = t
  last : ∃ p, ps.getLast? = some p ∧ p.instr.op ∈ [.ret, .tailCallSelf, .tailApplySelf]
  indexes : ∀ p ∈ ps, ∀ k, p.instr.poolIndex? = some k → k < f.constants.length
  names : ∀ p ∈ ps, p.instr.op = .setDef ∨ p.instr.op.family? = some .getDef ∨
    p.instr.op.family? = some .getDefPush →
      ∃ k n, p.instr.poolIndex? = some k ∧ f.constants[k]? = some (.value (.name n))
  closures : ∀ p ∈ ps, p.instr.op = .buildClosure →
    ∃ (k n j : Nat) (g : Function), p.instr.operands = [k, n] ∧
      f.constants[k]? = some (.function j) ∧ img.get? j = some g ∧ g.captures = n ∧ 0 < n
  plain : ∀ p ∈ ps, p.instr.op.family? = some .const ∨ p.instr.op.family? = some .constPush →
    ∀ k j, p.instr.poolIndex? = some k → f.constants[k]? = some (.function j) →
      ∃ g, img.get? j = some g ∧ g.captures = 0

namespace Instruction

variable {pool : List Constant} {functions : List Function} {i : Instruction}

theorem poolIndex?_of_fits (h : i.Fits) (hi : i.op = .setDef ∨ i.op = .buildClosure ∨
    ∃ f, i.op.family? = some f ∧ f.isSlot = false) : ∃ k, i.poolIndex? = some k := by
  obtain ⟨op, operands⟩ := i
  have hlen : operands.length = op.operandCount := h.1
  have hhead (hpos : 0 < op.operandCount) : ∃ k, operands.head? = some k := by
    cases operands with
    | nil => simp [← hlen] at hpos
    | cons k _ => exact ⟨k, rfl⟩
  rcases hi with rfl | rfl | ⟨f, hf, hs⟩
  · exact hhead (by decide)
  · exact hhead (by decide)
  · cases op with
    | wide f' =>
      cases hf
      simp only [poolIndex?, hs, Bool.false_eq_true, if_false]
      exact hhead (by simp [Opcode.operandCount])
    | compact f' k =>
      cases hf
      exact ⟨k, by simp [poolIndex?, hs]⟩
    | _ => cases hf

theorem Sound.name (h : i.Sound pool functions) (hi : i.op = .setDef ∨
    i.op.family? = some .getDef ∨ i.op.family? = some .getDefPush) :
    ∃ k n, i.poolIndex? = some k ∧ pool[k]? = some (.value (.name n)) := by
  obtain ⟨k, hk⟩ : ∃ k, i.poolIndex? = some k := by
    refine poolIndex?_of_fits h.fits ?_
    rcases hi with h | h | h
    · exact .inl h
    · exact .inr (.inr ⟨_, h, rfl⟩)
    · exact .inr (.inr ⟨_, h, rfl⟩)
  obtain ⟨c, hc, ha⟩ := h.constant k hk
  suffices hn : ∃ n, c = .value (.name n) by
    obtain ⟨n, rfl⟩ := hn
    exact ⟨k, n, hk, hc⟩
  obtain ⟨op, operands⟩ := i
  rcases hi with rfl | hf | hf
  · exact ha
  · cases op <;> cases hf <;> exact ha
  · cases op <;> cases hf <;> exact ha

theorem Sound.closure (h : i.Sound pool functions) (hi : i.op = .buildClosure) :
    ∃ (k n j : Nat) (g : Function), i.operands = [k, n] ∧ pool[k]? = some (.function j) ∧
      functions[j]? = some g ∧ g.captures = n ∧ 0 < n := by
  obtain ⟨op, operands⟩ := i
  cases hi
  have hlen : operands.length = 2 := h.fits.1
  match operands, hlen with
  | [k, n], _ =>
    obtain ⟨c, hc, j, g, m, rfl, hg, hm, hpos, hn⟩ := h.constant k rfl
    cases hn
    exact ⟨k, n, j, g, rfl, hc, hg, hm, hpos⟩

theorem Sound.plain (h : i.Sound pool functions)
    (hi : i.op.family? = some .const ∨ i.op.family? = some .constPush) {k j : Nat}
    (hk : i.poolIndex? = some k) (hj : pool[k]? = some (.function j)) :
    ∃ g, functions[j]? = some g ∧ g.captures = 0 := by
  obtain ⟨c, hc, ha⟩ := h.constant k hk
  have hcj : c = .function j := Option.some.inj (hc.symm.trans hj)
  obtain ⟨op, operands⟩ := i
  rcases hi with hf | hf <;> cases op <;> cases hf <;> exact ha j hcj

/-- Control goes to the target of a jump. -/
theorem target_mem_successors {p : Placed} {t : Nat} (ht : p.instr.target? = some t) :
    t ∈ p.successors := by
  have hjump : p.instr.op.isJump = true := by
    unfold target? at ht
    split at ht
    · assumption
    · cases ht
  have hterm : p.instr.op.isTerminal = false := by
    cases hop : p.instr.op <;> simp_all [Opcode.isJump, Opcode.isTerminal]
  simp only [Placed.successors, hterm, ht]
  simp only [Bool.false_eq_true, if_false]
  split <;> simp

end Instruction

theorem Opcode.mem_terminals {op : Opcode} (h : op.isTerminal = true) :
    op ∈ [.ret, .tailCallSelf, .tailApplySelf] := by
  cases op <;> simp_all [isTerminal]

theorem Function.Built.wellFormed {img : Image} {f : Function} {earlier : List Function}
    {is : List Instruction} (h : f.Built earlier is) (hearlier : earlier <+: img.functions) :
    img.WellFormed f (placeFrom 0 is) := by
  have hsound {p : Placed} (hp : p ∈ placeFrom 0 is) :
      p.instr.Sound f.constants img.functions :=
    (h.sound _ (Instruction.instr_mem_of_placed hp)).extend List.prefix_rfl hearlier
  have hlength : f.bytes.length = Instruction.totalSize is := by
    rw [h.code, Instruction.length_encode]
  refine ⟨?_, ?_, ?_, ?_, ?_, ?_, ?_, ?_⟩
  · rw [Instruction.decode, h.decodeFrom_bytes]
  · rw [Instruction.map_instr_placeFrom, h.code]
  · intro p hp t ht
    obtain ⟨base, -, δ, -, -, hkeep⟩ := h.flow
    obtain ⟨hlt, hgo⟩ := (hkeep p hp).edge t (Instruction.target_mem_successors ht)
    obtain ⟨q, hq, hqt, -⟩ := hgo.resolve_left id
    have hbounds := Instruction.mem_placeFrom_bounds hq
    have hpos := q.instr.size_pos
    exact ⟨hlt, by omega, q, hq, hqt⟩
  · obtain ⟨i, hi, hterm⟩ := h.last
    rw [← Instruction.getLast?_placeFrom 0 is] at hi
    obtain ⟨p, hp, rfl⟩ := Option.map_eq_some_iff.1 hi
    exact ⟨p, hp, Opcode.mem_terminals hterm⟩
  · intro p hp k hk
    obtain ⟨c, hc, -⟩ := (hsound hp).constant k hk
    exact (List.getElem?_eq_some_iff.1 hc).1
  · exact fun p hp => (hsound hp).name
  · exact fun p hp => (hsound hp).closure
  · exact fun p hp hf k j => (hsound hp).plain hf

namespace Image

variable {img : Image} {f : Function}

theorem WellFormed.checkFunction_ok {ps : List Placed} (h : img.WellFormed f ps) :
    checkFunction img f = .ok () := by
  unfold checkFunction
  rw [h.decodes]
  refine List.forM_eq_ok_iff.2 fun p hp => ?_
  have hindex : checkIndex f p = .ok () := by
    unfold checkIndex
    split
    · next k hk => rw [if_pos (h.indexes p hp k hk)]
    · rfl
  have htarget : checkTarget f p = .ok () := by
    unfold checkTarget
    split
    · next t ht => rw [if_pos (Nat.le_of_lt (h.jumps p hp t ht).2.1)]
    · rfl
  have hclosure : checkClosure img f p = .ok () := by
    unfold checkClosure
    split
    · next k n hi =>
      obtain ⟨k', n', j, g, hops, hc, hg, hn, -⟩ := h.closures p hp (by rw [hi])
      rw [hi] at hops
      cases hops
      simp [hc, hg, hn]
    · rfl
  unfold checkInstruction
  rw [hindex, htarget, hclosure]
  rfl

theorem mem_of_flattened (h : f ∈ img.flattened) : f ∈ img.functions := by
  obtain ⟨i, -, hi⟩ := List.mem_filterMap.1 h
  exact List.mem_of_getElem? hi

theorem validate_ok (h : ∀ f ∈ img.functions, ∃ ps, img.WellFormed f ps) :
    img.validate = .ok () := by
  refine List.forM_eq_ok_iff.2 fun f hf => ?_
  obtain ⟨ps, hps⟩ := h f (mem_of_flattened hf)
  rw [hps.checkFunction_ok]
  rfl

end Image

theorem Assembled.wellFormed {img : Image} (h : Assembled img.functions) {f : Function}
    (hf : f ∈ img.functions) : ∃ ps, img.WellFormed f ps := by
  obtain ⟨k, hk⟩ := List.mem_iff_getElem?.1 hf
  obtain ⟨is, his⟩ := h.built hk
  exact ⟨_, his.wellFormed (List.take_prefix _ _)⟩

/-- Functions refer only to functions that stand before them. -/
theorem Assembled.ordered {img : Image} (h : Assembled img.functions) : img.Ordered := by
  intro i f hi j hj
  obtain ⟨is, his⟩ := h.built hi
  obtain ⟨c, hc, hcj⟩ := List.mem_filterMap.1 hj
  have hlt : j < (img.functions.take i).length := by
    refine his.references j ?_
    cases c <;> simp_all
  rw [List.length_take] at hlt
  omega

/-- Compilation makes well-formed functions only, one image for each form. -/
theorem Compilation.compile_wellFormed {options : CompileOptions} {env : Environment}
    {forms : List Expr} {c : Compilation} (h : compile options env forms = .ok c) :
    c.images.length = forms.length ∧ ∀ img ∈ c.images,
      img.functions ≠ [] ∧ img.Ordered ∧ (∀ f ∈ img.functions, ∃ ps, img.WellFormed f ps) ∧
      img.validate = .ok () := by
  obtain ⟨hlen, himages⟩ := compiles_compile h
  refine ⟨hlen, fun img himg => ?_⟩
  obtain ⟨k, hk⟩ := List.mem_iff_getElem?.1 himg
  obtain ⟨e, ctx, -, hform⟩ := himages k img hk
  have hassembled := hform.assembled
  have hwell (f : Function) (hf : f ∈ img.functions) : ∃ ps, img.WellFormed f ps :=
    hassembled.wellFormed hf
  refine ⟨?_, hassembled.ordered, hwell, Image.validate_ok hwell⟩
  obtain ⟨_, _, _, rfl⟩ := hform.emits
  simp

/-- `(define f (lambda (a) (lambda (b) (if b a))))`: a closure with a jump in its code. -/
def Expr.guard : Expr :=
  .define {} [102] (.lambda {} [] [[97]]
    [.lambda {} [] [[98]] [.cond {} (.ident {} [98]) (.ident {} [97]) none]])

theorem Compilation.guard_wellFormed :
    ∃ c, compile {} {} [.guard] = .ok c ∧
      c.images.map (fun img => img.functions.map Function.bytes)
        = [[[2, 75, 5, 3, 87, 65, 87], [11, 72, 0, 1, 87], [21, 71, 0, 87]]] ∧
      ∀ img ∈ c.images, (∀ f ∈ img.functions, ∃ ps, img.WellFormed f ps) ∧
        img.validate = .ok () := by
  have h : compile {} {} [.guard] = .ok _ := rfl
  exact ⟨_, h, rfl, fun img himg => ((compile_wellFormed h).2 img himg).2.2⟩

end StackLisp
