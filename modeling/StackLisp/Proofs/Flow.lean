import StackLisp.Proofs.Frames
import StackLisp.Proofs.Growth

/-! Control flow and stack depth. Every place in the code has one depth, whichever way control comes
there; only a return may be reached with different depths. -/
namespace StackLisp

open Fragment (op instr jumpSize)

namespace Instruction

/-- The number of values that an instruction takes from the stack. -/
def pops (i : Instruction) : Nat :=
  match i.op, i.operands with
  | .call, [n] | .apply, [n] => n + 1
  | .compact .callConst _, [n] | .wide .callConst, [_, n] | .callSysArgs, [_, n]
  | .callSelf, [n] | .tailCallSelf, [n] | .applySelf, [n] | .tailApplySelf, [n]
  | .buildClosure, [_, n] | .skip, [n] => n
  | .callSys, [_] => 1
  | _, _ => 0

/-- The number of values that an instruction puts on the stack. -/
def pushes (i : Instruction) : Nat :=
  match i.op with
  | .push | .unitPush | .truthPush | .falsityPush
  | .wide .loadPush | .wide .constPush | .wide .getDefPush
  | .compact .loadPush _ | .compact .constPush _ | .compact .getDefPush _ => 1
  | _ => 0

/-- The depth of the stack behind an instruction. -/
def depthAfter (i : Instruction) (depth : Nat) : Nat := depth - i.pops + i.pushes

/-- The offsets that control may go to from an instruction. -/
def Placed.successors (p : Placed) : List Nat :=
  let next := p.offset + p.instr.size
  if p.instr.op.isTerminal then []
  else match p.instr.target? with
    | none => [next]
    | some t => if p.instr.op = .jump then [t] else [t, next]

/-- The instruction `p` of the code `ps` uses the stack as the depths `δ` allow. It leaves the
`floor` lowest values alone and reads slots that exist. Control goes on to later instructions with
their depth, or to a return, or leaves the code by `exit`. -/
structure Placed.Keeps (floor : Nat) (δ : Nat → Nat) (exit : Nat → Nat → Prop) (ps : List Placed)
    (p : Placed) : Prop where
  room : floor + p.instr.pops ≤ δ p.offset
  slot : ∀ s, p.instr.slot? = some s → s < δ p.offset
  edge : ∀ t ∈ p.successors, p.offset < t ∧
    (exit t (p.instr.depthAfter (δ p.offset)) ∨
      ∃ q ∈ ps, q.offset = t ∧ (q.instr.op = .ret ∨ δ t = p.instr.depthAfter (δ p.offset)))

/-- An instruction of a piece in a larger piece with the same depths, where each exit of the smaller
piece is an exit or an instruction of the larger one. -/
theorem Placed.Keeps.embed {floor : Nat} {δ δ' : Nat → Nat} {exit exit' : Nat → Nat → Prop}
    {ps ps' : List Placed} {p : Placed} (h : p.Keeps floor δ exit ps)
    (hp : δ' p.offset = δ p.offset) (hps : ∀ q ∈ ps, q ∈ ps' ∧ δ' q.offset = δ q.offset)
    (hexit : ∀ t k, exit t k →
      exit' t k ∨ ∃ q ∈ ps', q.offset = t ∧ (q.instr.op = .ret ∨ δ' t = k)) :
    p.Keeps floor δ' exit' ps' := by
  refine ⟨hp ▸ h.room, hp ▸ h.slot, fun t ht => ?_⟩
  obtain ⟨hlt, hgo⟩ := h.edge t ht
  rw [hp]
  refine ⟨hlt, ?_⟩
  rcases hgo with hout | ⟨q, hq, rfl, hdepth⟩
  · exact hexit t _ hout
  · obtain ⟨hq', hδ⟩ := hps q hq
    exact .inr ⟨q, hq', rfl, hδ ▸ hdepth⟩

end Instruction

open Instruction (placeFrom totalSize Placed)

/-- Code that is entered at its start with the given depth, and left by `exit` only. -/
def Carries (floor base depth : Nat) (exit : Nat → Nat → Prop) (is : List Instruction) : Prop :=
  ∃ δ : Nat → Nat, (is = [] → exit base depth) ∧ (is ≠ [] → δ base = depth) ∧
    ∀ p ∈ placeFrom base is, p.Keeps floor δ exit (placeFrom base is)

/-- Control leaves to one of the given offsets, always with the same depth. -/
def leavingTo (offsets : List Nat) (depth : Nat) : Nat → Nat → Prop :=
  fun t k => t ∈ offsets ∧ k = depth

namespace Carries

variable {floor base depth : Nat} {exit exit' : Nat → Nat → Prop} {is js : List Instruction}

theorem nil (h : exit base depth) : Carries floor base depth exit [] :=
  ⟨fun _ => 0, fun _ => h, fun hn => absurd rfl hn, fun p hp => by simp [placeFrom] at hp⟩

theorem single {i : Instruction} (hroom : floor + i.pops ≤ depth)
    (hslot : ∀ s, i.slot? = some s → s < depth)
    (hedge : ∀ t ∈ (⟨base, i⟩ : Placed).successors, base < t ∧ exit t (i.depthAfter depth)) :
    Carries floor base depth exit [i] := by
  refine ⟨fun _ => depth, by simp, fun _ => rfl, fun p hp => ?_⟩
  simp only [placeFrom, List.mem_singleton] at hp
  subst hp
  exact ⟨hroom, hslot, fun t ht => ⟨(hedge t ht).1, .inl (hedge t ht).2⟩⟩

/-- The depths of the first piece up to `mid`, and those of the second from there on. -/
private def glued (mid : Nat) (δ₁ δ₂ : Nat → Nat) (o : Nat) : Nat := if o < mid then δ₁ o else δ₂ o

theorem head_placed {js : List Instruction} (h : js ≠ []) (mid : Nat) :
    ∃ q ∈ placeFrom mid js, q.offset = mid := by
  obtain ⟨i, rest, rfl⟩ := List.exists_cons_of_ne_nil h
  exact ⟨⟨mid, i⟩, by simp [placeFrom], rfl⟩

/-- Two pieces one behind the other: where control leaves the first, it enters the second at its
start or at a return, or leaves both. -/
theorem append {mid depth' : Nat} {exit₁ exit₂ : Nat → Nat → Prop}
    (h₁ : Carries floor base depth exit₁ is) (h₂ : Carries floor mid depth' exit₂ js)
    (hmid : mid = base + totalSize is)
    (he₁ : ∀ t k, exit₁ t k → (t = mid → k = depth') ∧
      (t ≠ mid → exit t k ∨ ∃ q ∈ placeFrom mid js, q.offset = t ∧ q.instr.op = .ret))
    (he₂ : ∀ t k, exit₂ t k → exit t k) : Carries floor base depth exit (is ++ js) := by
  obtain ⟨δ₁, hnil₁, hentry₁, hkeep₁⟩ := h₁
  obtain ⟨δ₂, hnil₂, hentry₂, hkeep₂⟩ := h₂
  have hplaced : placeFrom base (is ++ js) = placeFrom base is ++ placeFrom mid js := by
    rw [Instruction.placeFrom_append, hmid]
  have hbefore {o : Nat} (h : o < mid) : glued mid δ₁ δ₂ o = δ₁ o := if_pos h
  have hbehind {o : Nat} (h : mid ≤ o) : glued mid δ₁ δ₂ o = δ₂ o := if_neg (by omega)
  have hfirst (q : Placed) (hq : q ∈ placeFrom base is) :
      glued mid δ₁ δ₂ q.offset = δ₁ q.offset := by
    have hbounds := Instruction.mem_placeFrom_bounds hq
    have hsize := q.instr.size_pos
    exact hbefore (by omega)
  have hsecond (q : Placed) (hq : q ∈ placeFrom mid js) :
      glued mid δ₁ δ₂ q.offset = δ₂ q.offset :=
    hbehind (Instruction.mem_placeFrom_bounds hq).1
  refine ⟨glued mid δ₁ δ₂, ?_, ?_, ?_⟩
  · intro hnil
    obtain ⟨rfl, rfl⟩ := List.append_eq_nil_iff.1 hnil
    have hbase : base = mid := hmid.symm
    have hdepth := (he₁ _ _ (hnil₁ rfl)).1 hbase
    rw [hbase, hdepth]
    exact he₂ _ _ (hnil₂ rfl)
  · intro hne
    by_cases his : is = []
    · subst his
      have hbase : mid = base := hmid
      have hdepth := (he₁ _ _ (hnil₁ rfl)).1 hbase.symm
      rw [hbehind (Nat.le_of_eq hbase), ← hbase, hdepth]
      exact hentry₂ hne
    · obtain ⟨q, hq, hqb⟩ := head_placed his base
      rw [← hqb, hfirst q hq, hqb]
      exact hentry₁ his
  · intro p hp
    rw [hplaced] at hp ⊢
    rcases List.mem_append.1 hp with hp | hp
    · refine (hkeep₁ p hp).embed (hfirst p hp)
        (fun q hq => ⟨List.mem_append_left _ hq, hfirst q hq⟩) fun t k hexit => ?_
      by_cases htm : t = mid
      · obtain rfl := (he₁ _ _ hexit).1 htm
        subst htm
        by_cases hjs : js = []
        · exact .inl (he₂ _ _ (hnil₂ hjs))
        · obtain ⟨q, hq, hqm⟩ := head_placed hjs t
          refine .inr ⟨q, List.mem_append_right _ hq, hqm, .inr ?_⟩
          rw [hbehind (Nat.le_refl t), hentry₂ hjs]
      · rcases (he₁ _ _ hexit).2 htm with hout | ⟨q, hq, hqt, hret⟩
        · exact .inl hout
        · exact .inr ⟨q, List.mem_append_right _ hq, hqt, .inl hret⟩
    · exact (hkeep₂ p hp).embed (hsecond p hp)
        (fun q hq => ⟨List.mem_append_right _ hq, hsecond q hq⟩)
        fun t k hexit => .inl (he₂ t k hexit)

/-- The first piece is left with one depth, the one with which the second is entered. -/
theorem follow {mid depth' : Nat} {ts : List Nat} {exit₂ : Nat → Nat → Prop}
    (h₁ : Carries floor base depth (leavingTo ts depth') is)
    (h₂ : Carries floor mid depth' exit₂ js) (hmid : mid = base + totalSize is)
    (he₁ : ∀ t ∈ ts, t = mid ∨ exit t depth') (he₂ : ∀ t k, exit₂ t k → exit t k) :
    Carries floor base depth exit (is ++ js) := by
  refine append h₁ h₂ hmid ?_ he₂
  rintro t k ⟨ht, rfl⟩
  exact ⟨fun _ => rfl, fun hne => .inl ((he₁ t ht).resolve_left hne)⟩

/-- Control leaves the first piece at its end only. -/
theorem after {mid depth' : Nat} (h₁ : Carries floor base depth (leavingTo [mid] depth') is)
    (h₂ : Carries floor mid depth' exit js) (hmid : mid = base + totalSize is) :
    Carries floor base depth exit (is ++ js) :=
  follow h₁ h₂ hmid (fun _ ht => .inl (List.mem_singleton.1 ht)) fun _ _ hk => hk

theorem through {mid depth' : Nat} {ts us vs : List Nat}
    (h₁ : Carries floor base depth (leavingTo ts depth') is)
    (h₂ : Carries floor mid depth' (leavingTo us depth') js) (hmid : mid = base + totalSize is)
    (hts : ts ⊆ mid :: vs) (hus : us ⊆ vs) :
    Carries floor base depth (leavingTo vs depth') (is ++ js) :=
  follow h₁ h₂ hmid (fun _ ht => (List.mem_cons.1 (hts ht)).imp id fun hv => ⟨hv, rfl⟩)
    fun _ _ hk => ⟨hus hk.1, hk.2⟩

end Carries

namespace Instruction

theorem successors_plain {i : Instruction} (ht : i.op.isTerminal = false)
    (hj : i.op.isJump = false) (base : Nat) :
    (⟨base, i⟩ : Placed).successors = [base + i.size] := by
  simp [Placed.successors, ht, target?, hj]

/-- An instruction that works on the register and the top of the stack and goes on behind. -/
structure Calls (i : Instruction) : Prop where
  terminal : i.op.isTerminal = false
  jump : i.op.isJump = false
  pushForm : i.op.pushForm = none
  pushes : i.pushes = 0
  slot : i.slot? = none

/-- A load in its push form pushes one value and reads the same slot. -/
theorem pushForm_flow {i : Instruction} {o : Opcode} (h : i.op.pushForm = some o) :
    ({ i with op := o } : Instruction).pops = 0 ∧ ({ i with op := o } : Instruction).pushes = 1 ∧
      ({ i with op := o } : Instruction).slot? = i.slot? ∧ o.isTerminal = false ∧
      o.isJump = false := by
  obtain ⟨code, operands⟩ := i
  cases code with
  | wide fam =>
    obtain ⟨fam', hfam, rfl⟩ := Option.map_eq_some_iff.1 h
    cases fam <;> cases hfam <;> exact ⟨rfl, rfl, rfl, rfl, rfl⟩
  | compact fam k =>
    obtain ⟨fam', hfam, rfl⟩ := Option.map_eq_some_iff.1 h
    cases fam <;> cases hfam <;> exact ⟨rfl, rfl, rfl, rfl, rfl⟩
  | unit | truth | falsity =>
    cases h
    exact ⟨rfl, rfl, rfl, rfl, rfl⟩
  | _ => cases h

end Instruction

namespace Fragment

/-- Control comes to the end of the piece and nowhere else, and the depth changes as given. -/
def Passes (floor base depth depth' : Nat) (f : Fragment) : Prop :=
  Carries floor base depth (leavingTo [base + f.size] depth') f.instructions

/-- With a return at its end, control does not leave the piece. -/
def Finishes (floor base depth : Nat) (f : Fragment) : Prop :=
  Carries floor base depth (fun _ _ => False) f.returning.instructions

/-- The stack behind the piece is as before, whatever is done with its value. -/
structure Steady (floor base depth : Nat) (f : Fragment) : Prop where
  passes : f.Passes floor base depth depth
  pushes : f.pushed.Passes floor base depth (depth + 1)
  finishes : f.Finishes floor base depth

variable {floor base depth depth' : Nat} {f g : Fragment}

theorem passes_empty : ({} : Fragment).Passes floor base depth depth :=
  Carries.nil ⟨List.mem_singleton.2 rfl, rfl⟩

theorem Passes.append {mid : Nat} (h : f.Passes floor base depth mid)
    (h' : g.Passes floor (base + f.size) mid depth') :
    (f ++ g).Passes floor base depth depth' := by
  unfold Passes at *
  rw [instructions_append, size_append, ← Nat.add_assoc]
  exact Carries.after h h' (by rw [size_eq])

theorem Passes.finishes_append {mid : Nat} (h : f.Passes floor base depth mid) (he : g.Ends)
    (h' : g.Finishes floor (base + f.size) mid) : (f ++ g).Finishes floor base depth := by
  unfold Finishes at *
  rw [returning_append f he, instructions_append]
  exact Carries.after h h' (by rw [size_eq])

theorem passes_instr {i : Instruction} (ht : i.op.isTerminal = false) (hj : i.op.isJump = false)
    (hroom : floor + i.pops ≤ depth) (hslot : ∀ s, i.slot? = some s → s < depth) :
    (instr i).Passes floor base depth (i.depthAfter depth) := by
  refine Carries.single hroom hslot fun t hmem => ?_
  rw [Instruction.successors_plain ht hj, List.mem_singleton] at hmem
  have hpos := i.size_pos
  exact ⟨by omega, List.mem_singleton.2 (by rw [size_instr, hmem]), rfl⟩

theorem carries_ret (h : floor ≤ depth) :
    Carries floor base depth (fun _ _ => False) [⟨.ret, []⟩] :=
  Carries.single (by simpa [Instruction.pops] using h) (by simp [Instruction.slot?])
    (by simp [Placed.successors, Opcode.isTerminal])

theorem Passes.finishes (h : f.Passes floor base depth depth') (hfloor : floor ≤ depth')
    (hr : f.returning = f ++ op .ret) : f.Finishes floor base depth := by
  unfold Finishes
  have hret : Carries floor (base + f.size) depth' (fun _ _ => False) (op .ret).instructions :=
    carries_ret hfloor
  rw [hr, instructions_append]
  exact Carries.after h hret (by rw [size_eq])

theorem Passes.steady (h : f.Passes floor base depth depth) (hfloor : floor ≤ depth)
    (hp : f.pushed = f ++ op .push) (hr : f.returning = f ++ op .ret) :
    f.Steady floor base depth := by
  refine ⟨h, ?_, h.finishes hfloor hr⟩
  rw [hp]
  exact h.append (passes_instr rfl rfl (by simpa [Instruction.pops] using hfloor)
    (by simp [Instruction.slot?]))

theorem Passes.steady_instr {i : Instruction} (h : (f ++ instr i).Passes floor base depth depth)
    (hfloor : floor ≤ depth) (hp : i.op.pushForm = none) (ht : i.op.isTerminal = false) :
    (f ++ instr i).Steady floor base depth :=
  h.steady hfloor (pushed_append_instr f hp) (returning_append_instr f ht)

theorem Passes.steady_landed (h : f.Passes floor base depth depth) (hfloor : floor ≤ depth) :
    f.landed.Steady floor base depth :=
  have hl : f.landed.Passes floor base depth depth := h
  hl.steady hfloor (pushed_of_landing rfl) (returning_of_landing rfl)

/-- An instruction that only writes the register. -/
theorem steady_load {i : Instruction} (ht : i.op.isTerminal = false) (hj : i.op.isJump = false)
    (hpops : i.pops = 0) (hpushes : i.pushes = 0) (hslot : ∀ s, i.slot? = some s → s < depth)
    (hfloor : floor ≤ depth) : (instr i).Steady floor base depth := by
  have hpass : (instr i).Passes floor base depth depth := by
    have h : (instr i).Passes floor base depth (i.depthAfter depth) :=
      passes_instr ht hj (by rw [hpops]; exact hfloor) hslot
    rwa [Instruction.depthAfter, hpops, hpushes] at h
  have hend : (instr i).EndsWith [] i := rfl
  refine ⟨hpass, ?_, hpass.finishes hfloor (returning_append_instr {} ht)⟩
  rcases hend.pushed_cases with ⟨-, o, ho, hp⟩ | ⟨-, hp⟩
  · obtain ⟨hpops', hpushes', hslot', ht', hj'⟩ := Instruction.pushForm_flow ho
    have h : (instr { i with op := o }).Passes floor base depth _ :=
      passes_instr ht' hj' (by rw [hpops']; exact hfloor) (by rwa [hslot'])
    rw [hp]
    rwa [Instruction.depthAfter, hpops', hpushes'] at h
  · rw [hp]
    exact hpass.append (passes_instr rfl rfl (by simpa [Instruction.pops] using hfloor)
      (by simp [Instruction.slot?]))

theorem Finishes.marked (h : f.Finishes floor base depth) (he : f.Ends) (pos : Position) :
    (f.marked pos).Finishes floor base depth := by
  unfold Finishes at h ⊢
  rwa [instructions_returning_marked pos he]

theorem Steady.marked (h : f.Steady floor base depth) (he : f.Ends) (pos : Position) :
    (f.marked pos).Steady floor base depth := by
  refine ⟨h.passes, ?_, h.finishes.marked he pos⟩
  have hp := h.pushes
  unfold Passes at hp ⊢
  rw [size_eq, instructions_pushed_marked pos he]
  rwa [size_eq] at hp

/-- What a piece does to the stack, by the use of its value. -/
def Flows (floor : Nat) (use : Use) (base depth : Nat) (f : Fragment) : Prop :=
  match use with
  | .value => f.Steady floor base depth
  | .tail => f.Finishes floor base depth
  | .test => f.Passes floor base depth depth

variable {use : Use}

theorem Steady.flows (h : f.Steady floor base depth) (use : Use) :
    f.Flows floor use base depth := by
  cases use with
  | value => exact h
  | tail => exact h.finishes
  | test => exact h.passes

theorem Flows.of_last (h : f.Flows floor use.last base depth) : f.Flows floor use base depth := by
  cases use with
  | test => exact Steady.passes h
  | _ => exact h

theorem Flows.marked (h : f.Flows floor use base depth) (he : f.Ends) (pos : Position) :
    (f.marked pos).Flows floor use base depth := by
  cases use with
  | value => exact Steady.marked h he pos
  | tail => exact Finishes.marked h he pos
  | test => exact h

theorem Flows.sequence (he : g.Ends) (hf : f.Passes floor base depth depth)
    (hg : g.Flows floor use (base + f.size) depth) : (f ++ g).Flows floor use base depth := by
  cases use with
  | test => exact hf.append hg
  | tail => exact hf.finishes_append he hg
  | value =>
    refine ⟨hf.append hg.passes, ?_, hf.finishes_append he hg.finishes⟩
    rw [pushed_append f he]
    exact hf.append hg.pushes

/-- A conditional jump keeps the depth on both of its ways. -/
theorem Passes.branch {truth : Bool} {target : Nat} (h : f.Passes floor base depth depth)
    (hfloor : floor ≤ depth) (hlt : base + f.size < target) :
    Carries floor base depth (leavingTo [target, base + f.size + jumpSize] depth)
      (f ++ op (Lower.branchOn truth) [target]).instructions := by
  have hbranch : Carries floor (base + f.size) depth
      (leavingTo [target, base + f.size + jumpSize] depth)
      (op (Lower.branchOn truth) [target]).instructions := by
    refine Carries.single ?_ ?_ fun t ht => ?_
    · cases truth <;> simpa [Lower.branchOn, Instruction.pops] using hfloor
    · cases truth <;> simp [Lower.branchOn, Instruction.slot?]
    · have hmem : t = target ∨ t = base + f.size + jumpSize := by
        cases truth <;>
          simpa [Lower.branchOn, Placed.successors, Opcode.isTerminal, Instruction.target?,
            Opcode.isJump, Instruction.size, jumpSize] using ht
      refine ⟨?_, ?_⟩
      · rcases hmem with rfl | rfl
        · exact hlt
        · exact Nat.lt_add_of_pos_right (by decide)
      · cases truth <;> exact ⟨by simpa using hmem, rfl⟩
  rw [instructions_append]
  exact Carries.after h hbranch (by rw [size_eq])

private theorem carries_jump {target : Nat} (hfloor : floor ≤ depth) (hlt : base < target) :
    Carries floor base depth (leavingTo [target] depth) (op .jump [target]).instructions := by
  refine Carries.single (by simpa [Instruction.pops] using hfloor) (by simp [Instruction.slot?])
    fun t ht => ?_
  have hmem : t = target := by
    simpa [Placed.successors, Opcode.isTerminal, Instruction.target?, Opcode.isJump] using ht
  exact ⟨hmem ▸ hlt, by simpa using hmem, rfl⟩

section Cond

variable {truth : Bool} {target : Nat} {t y n : Fragment}

theorem passes_cond (hfloor : floor ≤ depth) (ht : t.Passes floor base depth depth)
    (hy : y.Passes floor (base + t.size + jumpSize) depth depth)
    (htarget : target = base + t.size + jumpSize + y.size + jumpSize)
    (hn : n.Passes floor target depth depth) :
    (t ++ op (Lower.branchOn truth) [target] ++ y ++ op .jump [target + n.size] ++ n).Passes
      floor base depth depth := by
  have hjump : 0 < jumpSize := by decide
  have h₁ : Carries floor base depth (leavingTo [target, base + t.size + jumpSize] depth)
      (t ++ op (Lower.branchOn truth) [target]).instructions :=
    ht.branch hfloor (by omega)
  have h₂ : Carries floor base depth
      (leavingTo [target, base + t.size + jumpSize + y.size] depth)
      (t ++ op (Lower.branchOn truth) [target] ++ y).instructions := by
    rw [instructions_append]
    refine h₁.through hy ?_ (by simp) (by simp)
    rw [← size_eq, size_append, size_jump, Nat.add_assoc]
  have h₃ : Carries floor base depth (leavingTo [target, target + n.size] depth)
      (t ++ op (Lower.branchOn truth) [target] ++ y
        ++ op .jump [target + n.size]).instructions := by
    have hj := carries_jump hfloor
      (show base + t.size + jumpSize + y.size < target + n.size by omega)
    rw [instructions_append]
    refine h₂.through hj ?_ (by simp) (by simp)
    simp only [← size_eq, size_append, size_jump]
    omega
  have hsize : base + (t ++ op (Lower.branchOn truth) [target] ++ y
      ++ op .jump [target + n.size]).size = target := by
    simp only [size_append, size_jump]
    omega
  unfold Passes
  rw [instructions_append, size_append, ← Nat.add_assoc, hsize]
  exact h₃.through hn (by rw [← size_eq, hsize]) (by simp) (by simp)

theorem finishes_cond (hfloor : floor ≤ depth) (ht : t.Passes floor base depth depth)
    (hy : y.Finishes floor (base + t.size + jumpSize) depth)
    (htarget : target = base + t.size + jumpSize + y.returning.size) (he : n.Ends)
    (hn : n.Finishes floor target depth) :
    (t ++ op (Lower.branchOn truth) [target] ++ y.returning ++ n).Finishes floor base depth := by
  have hjump : 0 < jumpSize := by decide
  have h₁ : Carries floor base depth (leavingTo [target, base + t.size + jumpSize] depth)
      (t ++ op (Lower.branchOn truth) [target]).instructions :=
    ht.branch hfloor (by omega)
  have h₂ : Carries floor base depth (leavingTo [target] depth)
      (t ++ op (Lower.branchOn truth) [target] ++ y.returning).instructions := by
    rw [instructions_append]
    refine h₁.follow hy ?_ (by simp [leavingTo]) fun _ _ hno => hno.elim
    rw [← size_eq, size_append, size_jump, Nat.add_assoc]
  unfold Finishes
  rw [returning_append _ he, instructions_append]
  refine h₂.after hn ?_
  simp only [← size_eq, size_append, size_jump]
  omega

end Cond

section Operands

variable {truth : Bool} {stop : Nat}

theorem passes_operands (hfloor : floor ≤ depth) (hf : f.Passes floor base depth depth)
    (hstop : stop = base + f.size + jumpSize + g.size)
    (hg : g.Passes floor (base + f.size + jumpSize) depth depth) :
    (f ++ op (Lower.branchOn truth) [stop] ++ g).Passes floor base depth depth := by
  have hjump : 0 < jumpSize := by decide
  have h₁ : Carries floor base depth (leavingTo [stop, base + f.size + jumpSize] depth)
      (f ++ op (Lower.branchOn truth) [stop]).instructions :=
    hf.branch hfloor (by omega)
  have hsize : base + (f ++ op (Lower.branchOn truth) [stop]).size
      = base + f.size + jumpSize := by
    rw [size_append, size_jump, Nat.add_assoc]
  unfold Passes
  rw [instructions_append, size_append, ← Nat.add_assoc, hsize]
  exact h₁.through hg (by rw [← size_eq, hsize]) (by simp [hstop]) (by simp)

/-- The jump behind an operand goes to the return that stands behind the last one. -/
theorem finishes_operands (hfloor : floor ≤ depth) (hf : f.Passes floor base depth depth)
    (hstop : stop = base + f.size + jumpSize + g.size)
    (hg : g.Finishes floor (base + f.size + jumpSize) depth) :
    (f ++ op (Lower.branchOn truth) [stop] ++ g).landed.Finishes floor base depth := by
  have hjump : 0 < jumpSize := by decide
  have h₁ : Carries floor base depth (leavingTo [stop, base + f.size + jumpSize] depth)
      (f ++ op (Lower.branchOn truth) [stop]).instructions :=
    hf.branch hfloor (by omega)
  have hsize : base + f.size + jumpSize
      = base + totalSize (f ++ op (Lower.branchOn truth) [stop]).instructions := by
    rw [← size_eq, size_append, size_jump, Nat.add_assoc]
  have hreturn : ∃ q ∈ placeFrom stop [⟨.ret, []⟩], q.offset = stop ∧ q.instr.op = .ret :=
    ⟨⟨stop, ⟨.ret, []⟩⟩, by simp [placeFrom], rfl, rfl⟩
  unfold Finishes at hg ⊢
  rw [returning_of_landing (landing_landed _), instructions_append, instructions_landed,
    instructions_append]
  cases hterm : g.terminated with
  | true =>
    -- The last operand leaves by itself: only the jumps use the return.
    rw [returning_of_terminated hterm] at hg
    have h₂ : Carries floor base depth (leavingTo [stop] depth)
        ((f ++ op (Lower.branchOn truth) [stop]).instructions ++ g.instructions) :=
      h₁.follow hg hsize (by simp [leavingTo]) fun _ _ hno => hno.elim
    refine h₂.after (carries_ret hfloor) ?_
    rw [Instruction.totalSize_append, ← Nat.add_assoc, ← hsize, ← size_eq, hstop]
  | false =>
    rw [returning_of_not_terminated hterm, instructions_append] at hg
    rw [List.append_assoc]
    refine Carries.append h₁ hg hsize ?_ fun _ _ hno => hno
    rintro t k ⟨ht, rfl⟩
    refine ⟨fun _ => rfl, fun hne => .inr ?_⟩
    have hts : t = stop := by
      simpa [hne] using ht
    obtain ⟨q, hq, hqo, hqr⟩ := hreturn
    refine ⟨q, ?_, hqo.trans hts.symm, hqr⟩
    rw [Instruction.placeFrom_append, ← size_eq, ← hstop]
    exact List.mem_append_right _ hq

theorem Flows.operands {use : Use} (hfloor : floor ≤ depth)
    (hf : f.Passes floor base depth depth) (hstop : stop = base + f.size + jumpSize + g.size)
    (hg : g.Flows floor use (base + f.size + jumpSize) depth) :
    (f ++ op (Lower.branchOn truth) [stop] ++ g).landed.Flows floor use base depth := by
  cases use with
  | test => exact passes_operands hfloor hf hstop hg
  | tail => exact finishes_operands hfloor hf hstop hg
  | value => exact (passes_operands hfloor hf hstop (Steady.passes hg)).steady_landed hfloor

end Operands

theorem passes_skips (count : Nat) (hfloor : floor ≤ depth) :
    (⟨skips count, false⟩ : Fragment).Passes floor base (depth + count) depth := by
  fun_induction skips count generalizing base with
  | case1 => exact passes_empty
  | case2 count hc ih =>
    have hskip : (op .skip [min count 255]).Passes floor base (depth + count)
        (depth + (count - 255)) := by
      have h : (op .skip [min count 255]).Passes floor base (depth + count)
          ((⟨.skip, [min count 255]⟩ : Instruction).depthAfter (depth + count)) :=
        passes_instr rfl rfl (by simp only [Instruction.pops]; omega) (by simp [Instruction.slot?])
      have hd : (⟨.skip, [min count 255]⟩ : Instruction).depthAfter (depth + count)
          = depth + (count - 255) := by
        simp only [Instruction.depthAfter, Instruction.pops, Instruction.pushes]
        omega
      rwa [hd] at h
    exact hskip.append ih

/-- The values of a `let` leave the stack behind its body. -/
theorem steady_let {v b : Fragment} {count : Nat} (he : b.Ends) (hfloor : floor ≤ depth)
    (hv : v.Passes floor base depth (depth + count))
    (hb : b.Steady floor (base + v.size) (depth + count)) :
    ((v ++ b).skipping count).Steady floor base depth := by
  unfold skipping
  split
  · next hc =>
    rw [hc] at hv hb
    have hflows : (v ++ b).Flows floor .value base depth := Flows.sequence he hv hb
    exact hflows
  · next hc =>
    have hpass : (v ++ b ++ ⟨skips count, false⟩).Passes floor base depth depth :=
      (hv.append hb.passes).append (passes_skips count hfloor)
    obtain ⟨front, n, hend⟩ := endsWith_skips hc
    have hsplit : v ++ b ++ ⟨skips count, false⟩
        = (v ++ b ++ ⟨front, false⟩) ++ instr ⟨.skip, [n]⟩ := by
      change Fragment.mk _ _ = Fragment.mk _ _
      simp [show skips count = _ from hend, instr]
    rw [hsplit] at hpass ⊢
    exact hpass.steady_instr hfloor rfl rfl

section Calls

variable {a : Fragment} {i : Instruction}

/-- A call takes its arguments from the stack and leaves its result in the register. -/
theorem Passes.steady_call (hi : i.Calls) (ha : a.Passes floor base depth (depth + i.pops))
    (hfloor : floor ≤ depth) : (a ++ instr i).Steady floor base depth := by
  have hcall : (instr i).Passes floor (base + a.size) (depth + i.pops) depth := by
    have h : (instr i).Passes floor (base + a.size) (depth + i.pops)
        (i.depthAfter (depth + i.pops)) :=
      passes_instr hi.terminal hi.jump (by omega) (by simp [hi.slot])
    rwa [Instruction.depthAfter, hi.pushes, Nat.add_zero, Nat.add_sub_cancel] at h
  exact (ha.append hcall).steady_instr hfloor hi.pushForm hi.terminal

/-- A call of the function itself in its last place takes the arguments and does not come back. -/
theorem Passes.finishes_call (ha : a.Passes floor base depth (depth + i.pops))
    (ht : i.op.isTerminal = true) (hslot : i.slot? = none) (hfloor : floor ≤ depth) :
    (a ++ instr i).Finishes floor base depth := by
  have hend : (a ++ instr i).EndsWith a.items i := rfl
  have hcall : Carries floor (base + a.size) (depth + i.pops) (fun _ _ => False) [i] :=
    Carries.single (by omega) (by simp [hslot]) (by simp [Placed.successors, ht])
  unfold Finishes
  rw [returning_of_terminated (by simp [hend.terminated_eq, ht]), instructions_append]
  exact Carries.after ha hcall (by rw [size_eq])

end Calls

end Fragment
end StackLisp
