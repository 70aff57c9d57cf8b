import StackLisp.Proofs.Growth
import StackLisp.Proofs.Processor

/-! What running a piece of code does, put together from what its parts do. -/
namespace StackLisp

open Fragment (op instr jumpSize)
open Lower (branchOn)

namespace Processor

variable {V S : Type}

/-- All but the place in the code. -/
structure Data (V S : Type) where
  register : V
  stack : List V
  world : World V S

def Data.at (s : Data V S) (pc : Nat) : Config V S := ⟨pc, s.register, s.stack, s.world⟩

variable (m : Processor V S)

/-- The piece at `base` is run through to its end. -/
def Goes (base : Nat) (f : Fragment) (s t : Data V S) : Prop :=
  m.Holds base f.instructions → m.Runs (s.at base) (.running (t.at (base + f.size)))

section
variable (base : Nat) (f : Fragment) (stack : List V)

/-- The value comes in the register, and the stack is as before. -/
def Delivers (c : StateM (World V S) V) : Prop :=
  ∀ r w, m.Goes base f ⟨r, stack, w⟩ ⟨(c w).1, stack, (c w).2⟩

/-- With a push at its end, the piece leaves the value on the stack. -/
def Pushes (c : StateM (World V S) V) : Prop :=
  ∀ r w, m.Goes base f.pushed ⟨r, stack, w⟩ ⟨(c w).1, stack ++ [(c w).1], (c w).2⟩

/-- With a return at its end, the piece returns the value. -/
def Returns (c : StateM (World V S) V) : Prop :=
  m.Holds base f.returning.instructions →
    ∀ r w, m.Runs ⟨base, r, stack, w⟩ (.returned (c w).1 (c w).2)

/-- The piece computes a value, whatever is done with it. -/
structure Computes (c : StateM (World V S) V) : Prop where
  delivers : m.Delivers base f stack c
  pushes : m.Pushes base f stack c
  returns : m.Returns base f stack c

/-- The values come on the stack, one upon the other. -/
def Stacks (c : StateM (World V S) (List V)) : Prop :=
  ∀ r w, ∃ r', m.Goes base f ⟨r, stack, w⟩ ⟨r', stack ++ (c w).1, (c w).2⟩

/-- The last value comes in the register and those before it on the stack. -/
def Spreads (c : StateM (World V S) (List V × V)) : Prop :=
  ∀ r w, m.Goes base f ⟨r, stack, w⟩ ⟨(c w).1.2, stack ++ (c w).1.1, (c w).2⟩

/-- The truth of the register is the truth of the condition, or its opposite if `negated`. -/
def Tests (negated : Bool) (c : StateM (World V S) Bool) : Prop :=
  ∀ r w, ∃ v, m.Goes base f ⟨r, stack, w⟩ ⟨v, stack, (c w).2⟩ ∧
    m.runtime.truthy v = ((c w).1 ^^ negated)

end

variable {m : Processor V S} {base : Nat} {f g : Fragment} {stack : List V}

theorem Holds.append (h : m.Holds base (f ++ g).instructions) :
    m.Holds base f.instructions ∧ m.Holds (base + f.size) g.instructions := by
  rw [Fragment.instructions_append] at h
  rw [Fragment.size_eq]
  exact ⟨h.left, h.right⟩

theorem Goes.append {s t u : Data V S} (h : m.Goes base f s t)
    (h' : m.Goes (base + f.size) g t u) : m.Goes base (f ++ g) s u := by
  intro hh
  obtain ⟨hf, hg⟩ := hh.append
  rw [Fragment.size_append, ← Nat.add_assoc]
  exact (h hf).trans (h' hg)

theorem Goes.empty (s : Data V S) : m.Goes base {} s s := fun _ => .refl _

theorem goes_instr {i : Instruction} {s t : Data V S}
    (h : m.execute i (base + i.size) (s.at base) = some (.running (t.at (base + i.size)))) :
    m.Goes base (instr i) s t := by
  intro hh
  rw [Fragment.size_instr]
  have hstep : m.step (s.at base) = m.execute i (base + i.size) (s.at base) := Holds.step hh
  exact .next (hstep.trans h) (.refl _)

theorem goes_push (s : Data V S) :
    m.Goes base (op .push) s ⟨s.register, s.stack ++ [s.register], s.world⟩ := goes_instr rfl

private theorem executeIndexed_pushForm {fam fam' : Family} (h : fam.pushForm = some fam')
    (k next : Nat) (c : Config V S) (extra : List Nat) :
    m.executeIndexed k next c fam' extra =
      (m.executeIndexed k next c fam extra).map Outcome.push := by
  cases fam <;> cases h <;> cases extra <;> simp only [executeIndexed, Option.map_map,
    Option.map_none] <;> first | rfl | (split <;> rfl)

/-- A load in its push form does what the load does and pushes. -/
theorem execute_pushForm {i : Instruction} {o : Opcode} (h : i.op.pushForm = some o) (next : Nat)
    (c : Config V S) :
    m.execute { i with op := o } next c = (m.execute i next c).map Outcome.push := by
  obtain ⟨code, operands⟩ := i
  cases code with
  | wide fam =>
    obtain ⟨fam', hfam, rfl⟩ := Option.map_eq_some_iff.1 h
    cases operands with
    | nil => rfl
    | cons k extra => exact executeIndexed_pushForm hfam k next c extra
  | compact fam k =>
    obtain ⟨fam', hfam, rfl⟩ := Option.map_eq_some_iff.1 h
    exact executeIndexed_pushForm hfam k next c operands
  | unit | truth | falsity =>
    cases h
    cases operands <;> rfl
  | _ => cases h

theorem Delivers.pushes {c : StateM (World V S) V} (h : m.Delivers base f stack c)
    (hp : f.pushed = f ++ op .push) : m.Pushes base f stack c := by
  intro r w
  rw [hp]
  exact (h r w).append (goes_push _)

theorem Delivers.returns {c : StateM (World V S) V} (h : m.Delivers base f stack c)
    (hr : f.returning = f ++ op .ret) : m.Returns base f stack c := by
  intro hh r w
  rw [hr] at hh
  obtain ⟨hf, hret⟩ := hh.append
  refine (h r w hf).trans (.stop ?_)
  exact Holds.step (c := ⟨base + f.size, (c w).1, stack, (c w).2⟩) hret

theorem Delivers.computes {c : StateM (World V S) V} (h : m.Delivers base f stack c)
    (hp : f.pushed = f ++ op .push) (hr : f.returning = f ++ op .ret) :
    m.Computes base f stack c :=
  ⟨h, h.pushes hp, h.returns hr⟩

theorem Delivers.computes_instr {c : StateM (World V S) V} {i : Instruction}
    (h : m.Delivers base (f ++ instr i) stack c) (hp : i.op.pushForm = none)
    (ht : i.op.isTerminal = false) : m.Computes base (f ++ instr i) stack c :=
  h.computes (Fragment.pushed_append_instr f hp) (Fragment.returning_append_instr f ht)

theorem Delivers.computes_landed {c : StateM (World V S) V} (h : m.Delivers base f stack c) :
    m.Computes base f.landed stack c :=
  have hd : m.Delivers base f.landed stack c := h
  hd.computes (Fragment.pushed_of_landing rfl) (Fragment.returning_of_landing rfl)

/-- A single instruction that only computes a value. -/
theorem computes_instr {i : Instruction} {c : StateM (World V S) V} (ht : i.op.isTerminal = false)
    (h : ∀ pc next r w,
      m.execute i next ⟨pc, r, stack, w⟩ = some (.running ⟨next, (c w).1, stack, (c w).2⟩)) :
    m.Computes base (instr i) stack c := by
  have hd : m.Delivers base (instr i) stack c := fun r w => goes_instr (h _ _ r w)
  have hend : (instr i).EndsWith [] i := rfl
  refine ⟨hd, ?_, hd.returns (Fragment.returning_of_not_terminated ?_)⟩
  · rcases hend.pushed_cases with ⟨-, o, ho, hp⟩ | ⟨-, hp⟩
    · intro r w
      rw [hp]
      refine goes_instr ((execute_pushForm ho _ _).trans ?_)
      exact congrArg (Option.map Outcome.push) (h _ _ r w)
    · exact hd.pushes hp
  · rw [hend.terminated_eq, ht, Bool.and_false]

/-- Marks have no part in execution. -/
theorem goes_congr {s t : Data V S} (h : f.instructions = g.instructions) :
    m.Goes base f s t ↔ m.Goes base g s t := by
  simp only [Goes, Fragment.size_eq, h]

theorem Pushes.marked {c : StateM (World V S) V} (h : m.Pushes base f stack c) (he : f.Ends)
    (pos : Position) : m.Pushes base (f.marked pos) stack c :=
  fun r w => (goes_congr (Fragment.instructions_pushed_marked pos he)).2 (h r w)

theorem Returns.marked {c : StateM (World V S) V} (h : m.Returns base f stack c) (he : f.Ends)
    (pos : Position) : m.Returns base (f.marked pos) stack c := by
  intro hh
  rw [Fragment.instructions_returning_marked pos he] at hh
  exact h hh

theorem stacks_nil : m.Stacks base {} stack (pure []) := by
  refine fun r w => ⟨r, ?_⟩
  rw [show stack ++ ((pure [] : StateM (World V S) (List V)) w).1 = stack from List.append_nil _]
  exact Goes.empty _

/-- Values are pushed from left to right. -/
theorem Pushes.stacks {c : StateM (World V S) V} {cs : StateM (World V S) (List V)}
    (h : m.Pushes base f stack c)
    (h' : ∀ v, m.Stacks (base + f.pushed.size) g (stack ++ [v]) cs) :
    m.Stacks base (f.pushed ++ g) stack (do let v ← c; let vs ← cs; pure (v :: vs)) := by
  intro r w
  obtain ⟨r', hg⟩ := h' (c w).1 (c w).1 (c w).2
  refine ⟨r', (h r w).append ?_⟩
  rw [List.append_assoc] at hg
  exact hg

theorem Delivers.spreads {c : StateM (World V S) V} (h : m.Delivers base f stack c) :
    m.Spreads base f stack (do let v ← c; pure ([], v)) := by
  intro r w
  rw [show stack ++ ((do let v ← c; pure ([], v) : StateM (World V S) (List V × V)) w).1.1 = stack
    from List.append_nil _]
  exact h r w

theorem Pushes.spreads {c : StateM (World V S) V} {cs : StateM (World V S) (List V × V)}
    (h : m.Pushes base f stack c)
    (h' : ∀ v, m.Spreads (base + f.pushed.size) g (stack ++ [v]) cs) :
    m.Spreads base (f.pushed ++ g) stack
      (do let v ← c; let (vs, list) ← cs; pure (v :: vs, list)) := by
  intro r w
  have hg := h' (c w).1 (c w).1 (c w).2
  rw [List.append_assoc] at hg
  exact (h r w).append hg

/-- A piece that returns may stand behind others that leave any register and any stack. -/
theorem Returns.after (u : World V S → List V × World V S)
    (c : World V S → StateM (World V S) V) (he : g.Ends)
    (hf : ∀ r w, ∃ r', m.Goes base f ⟨r, stack, w⟩ ⟨r', (u w).1, (u w).2⟩)
    (h : ∀ w, m.Returns (base + f.size) g (u w).1 (c w)) :
    m.Returns base (f ++ g) stack fun w => c w (u w).2 := by
  intro hh r w
  rw [Fragment.returning_append f he] at hh
  obtain ⟨hfirst, hrest⟩ := hh.append
  obtain ⟨r', hgo⟩ := hf r w
  exact (hgo hfirst).trans (h w hrest r' _)

theorem execute_indexed (fam : Family) (k : Nat) (extra : List Nat) (next : Nat)
    (c : Config V S) :
    m.execute (.indexed fam k extra) next c = m.executeIndexed k next c fam extra := by
  by_cases h : k < 8 <;> simp [Instruction.indexed, h, execute]

theorem isTerminal_indexed (fam : Family) (k : Nat) (extra : List Nat) :
    (Instruction.indexed fam k extra).op.isTerminal = false := by
  by_cases h : k < 8 <;> simp [Instruction.indexed, h, Opcode.isTerminal]

/-- Calls take their arguments from the stack, where they lie in order. -/
theorem execute_callSelf (vs : List V) (pc next : Nat) (r : V) (w : World V S) :
    m.execute ⟨.callSelf, [vs.length]⟩ next ⟨pc, r, stack ++ vs, w⟩ =
      some (m.request ⟨pc, r, stack ++ vs, w⟩ next stack (.self vs)) := by
  simp [execute]

theorem execute_tailCallSelf (vs : List V) (pc next : Nat) (r : V) (w : World V S) :
    m.execute ⟨.tailCallSelf, [vs.length]⟩ next ⟨pc, r, stack ++ vs, w⟩ =
      some (m.finish ⟨pc, r, stack ++ vs, w⟩ (.self vs)) := by
  simp [execute]

theorem execute_applySelf (vs : List V) (pc next : Nat) (r : V) (w : World V S) :
    m.execute ⟨.applySelf, [vs.length]⟩ next ⟨pc, r, stack ++ vs, w⟩ =
      some (m.request ⟨pc, r, stack ++ vs, w⟩ next stack (.applySelf vs r)) := by
  simp [execute]

theorem execute_tailApplySelf (vs : List V) (pc next : Nat) (r : V) (w : World V S) :
    m.execute ⟨.tailApplySelf, [vs.length]⟩ next ⟨pc, r, stack ++ vs, w⟩ =
      some (m.finish ⟨pc, r, stack ++ vs, w⟩ (.applySelf vs r)) := by
  simp [execute]

theorem execute_callConst {k : Nat} {v : Value} (hk : m.pool[k]? = some (.value v)) (vs : List V)
    (pc next : Nat) (r : V) (w : World V S) :
    m.execute (.indexed .callConst k [vs.length]) next ⟨pc, r, stack ++ vs, w⟩ =
      some (m.request ⟨pc, r, stack ++ vs, w⟩ next stack (.named v vs)) := by
  rw [execute_indexed]
  simp [executeIndexed, hk]

theorem execute_call (fn : V) (vs : List V) (pc next : Nat) (r : V) (w : World V S) :
    m.execute ⟨.call, [vs.length]⟩ next ⟨pc, r, stack ++ fn :: vs, w⟩ =
      some (m.request ⟨pc, r, stack ++ fn :: vs, w⟩ next stack (.call fn vs)) := by
  have hpop := pop_append stack (fn :: vs)
  simp only [List.length_cons] at hpop
  simp [execute, hpop]

theorem execute_apply (fn : V) (vs : List V) (pc next : Nat) (r : V) (w : World V S) :
    m.execute ⟨.apply, [vs.length]⟩ next ⟨pc, r, stack ++ fn :: vs, w⟩ =
      some (m.request ⟨pc, r, stack ++ fn :: vs, w⟩ next stack (.apply fn vs r)) := by
  have hpop := pop_append stack (fn :: vs)
  simp only [List.length_cons] at hpop
  simp [execute, hpop]

/-- A piece that leaves a request's arguments on the stack, with the instruction that takes them. -/
theorem delivers_request {α : Type} {ca : StateM (World V S) α} {req : α → Request V}
    {i : Instruction} (args : α → List V)
    (h : ∀ r w, ∃ r', m.Goes base f ⟨r, stack, w⟩ ⟨r', stack ++ args (ca w).1, (ca w).2⟩ ∧
      ∀ pc next, m.execute i next ⟨pc, r', stack ++ args (ca w).1, (ca w).2⟩ =
        some (m.request ⟨pc, r', stack ++ args (ca w).1, (ca w).2⟩ next stack (req (ca w).1))) :
    m.Delivers base (f ++ instr i) stack (do m.runtime.ask (req (← ca))) := by
  intro r w
  obtain ⟨r', hgo, hx⟩ := h r w
  exact hgo.append (goes_instr (hx _ _))

/-- The same for an instruction whose answer is the result. -/
theorem returns_request {α : Type} {ca : StateM (World V S) α} {req : α → Request V}
    {o : Opcode} {operands : List Nat} (ho : o.isTerminal = true) (args : α → List V)
    (h : ∀ r w, ∃ r', m.Goes base f ⟨r, stack, w⟩ ⟨r', stack ++ args (ca w).1, (ca w).2⟩ ∧
      ∀ pc next, m.execute ⟨o, operands⟩ next ⟨pc, r', stack ++ args (ca w).1, (ca w).2⟩ =
        some (m.finish ⟨pc, r', stack ++ args (ca w).1, (ca w).2⟩ (req (ca w).1))) :
    m.Returns base (f ++ op o operands) stack (do m.runtime.ask (req (← ca))) := by
  intro hh r w
  have hend : (f ++ op o operands).EndsWith f.items ⟨o, operands⟩ := rfl
  have hterm : (f ++ op o operands).terminated = true := by
    rw [hend.terminated_eq, ho]
    rfl
  rw [Fragment.returning_of_terminated hterm] at hh
  obtain ⟨hf, hlast⟩ := hh.append
  obtain ⟨r', hgo, hx⟩ := h r w
  refine (hgo hf).trans (.stop ((Holds.step (c := ⟨_, _, _, _⟩) hlast).trans ?_))
  exact hx _ _

/-- Both ways to call a system function make the same request. -/
theorem goes_callBuiltin (b : Builtin) (vs : List V) (r : V) (w : World V S) :
    m.Goes base (Lower.callBuiltin b vs.length) ⟨r, stack ++ vs, w⟩
      ⟨(m.runtime.ask (.builtin b.id.toNat vs) w).1, stack,
        (m.runtime.ask (.builtin b.id.toNat vs) w).2⟩ := by
  unfold Lower.callBuiltin
  split
  · next h =>
    refine goes_instr ?_
    have hpop := pop_append stack vs
    rw [h.2] at hpop
    simp [execute, Data.at, hpop]
    rfl
  · refine goes_instr ?_
    simp [execute, Data.at]
    rfl

theorem Delivers.computes_callBuiltin {c : StateM (World V S) V} {b : Builtin} {argc : Nat}
    (h : m.Delivers base (f ++ Lower.callBuiltin b argc) stack c) :
    m.Computes base (f ++ Lower.callBuiltin b argc) stack c := by
  unfold Lower.callBuiltin at h ⊢
  split at h
  · next hb =>
    rw [if_pos hb]
    exact h.computes_instr rfl rfl
  · next hb =>
    rw [if_neg hb]
    exact h.computes_instr rfl rfl

theorem step_branch {taken : Bool} {target : Nat} {r : V} {w : World V S}
    (h : m.Holds base [⟨branchOn taken, [target]⟩]) :
    m.step ⟨base, r, stack, w⟩ = some (.running
      ⟨if m.runtime.truthy r = taken then target else base + jumpSize, r, stack, w⟩) := by
  rw [Holds.step (c := ⟨base, r, stack, w⟩) h]
  cases taken <;> cases ht : m.runtime.truthy r <;> simp [branchOn, execute, ht] <;> rfl

theorem step_jump {target : Nat} {r : V} {w : World V S} (h : m.Holds base [⟨.jump, [target]⟩]) :
    m.step ⟨base, r, stack, w⟩ = some (.running ⟨target, r, stack, w⟩) := by
  rw [Holds.step (c := ⟨base, r, stack, w⟩) h]
  rfl

/-- Dropping the values that were pushed gives back the stack below them. -/
theorem goes_skips {count : Nat} {vs : List V} (h : vs.length = count) (r : V) (w : World V S) :
    m.Goes base ⟨Fragment.skips count, false⟩ ⟨r, stack ++ vs, w⟩ ⟨r, stack, w⟩ := by
  fun_induction Fragment.skips count generalizing base vs with
  | case1 =>
    rw [List.eq_nil_of_length_eq_zero h, List.append_nil]
    exact Goes.empty _
  | case2 count _ ih =>
    have htake : (vs.take (count - 255)).length = count - 255 := by simp; omega
    have hdrop : (vs.drop (count - 255)).length = min count 255 := by simp; omega
    have hpop : pop (min count 255) (stack ++ vs) =
        some (stack ++ vs.take (count - 255), vs.drop (count - 255)) := by
      rw [← hdrop, ← pop_append, List.append_assoc, List.take_append_drop]
    have hskip : m.Goes base (op .skip [min count 255]) ⟨r, stack ++ vs, w⟩
        ⟨r, stack ++ vs.take (count - 255), w⟩ := by
      refine goes_instr ?_
      simp [execute, Data.at, hpop]
    exact hskip.append (ih htake)

variable {use : Use} {c : StateM (World V S) V}

/-- What a piece does for the given use of its value. -/
def Simulates (m : Processor V S) (use : Use) (base : Nat) (f : Fragment) (stack : List V)
    (c : StateM (World V S) V) : Prop :=
  match use with
  | .value => m.Computes base f stack c
  | .tail => m.Returns base f stack c
  | .test => m.Delivers base f stack c

theorem Computes.simulates (h : m.Computes base f stack c) (use : Use) :
    m.Simulates use base f stack c := by
  cases use with
  | value => exact h
  | tail => exact h.returns
  | test => exact h.delivers

theorem Simulates.of_last (h : m.Simulates use.last base f stack c) :
    m.Simulates use base f stack c := by
  cases use with
  | test => exact Computes.delivers h
  | _ => exact h

theorem Computes.marked (h : m.Computes base f stack c) (he : f.Ends) (pos : Position) :
    m.Computes base (f.marked pos) stack c :=
  ⟨h.delivers, h.pushes.marked he pos, h.returns.marked he pos⟩

theorem Simulates.marked (h : m.Simulates use base f stack c) (he : f.Ends) (pos : Position) :
    m.Simulates use base (f.marked pos) stack c := by
  cases use with
  | value => exact Computes.marked h he pos
  | tail => exact Returns.marked h he pos
  | test => exact h

theorem run_ite (ct : StateM (World V S) Bool) (cy cn : StateM (World V S) V) (w : World V S) :
    (do if ← ct then cy else cn : StateM (World V S) V) w =
      if (ct w).1 then cy (ct w).2 else cn (ct w).2 := by
  change (if (ct w).1 then cy else cn) (ct w).2 = _
  split <;> rfl

/-- A condition leads to one of two pieces, which stand one behind the other. -/
theorem runs_cond {t : Fragment} {taken : Bool} {target : Nat} {ct : StateM (World V S) Bool}
    {r : V} {w : World V S} {o : Outcome V S}
    (ht : m.Tests base t stack taken ct) (hh : m.Holds base t.instructions)
    (hb : m.Holds (base + t.size) [⟨branchOn taken, [target]⟩])
    (hyes : (ct w).1 = true → ∀ v, m.Runs ⟨base + t.size + jumpSize, v, stack, (ct w).2⟩ o)
    (hno : (ct w).1 = false → ∀ v, m.Runs ⟨target, v, stack, (ct w).2⟩ o) :
    m.Runs ⟨base, r, stack, w⟩ o := by
  obtain ⟨v, hgo, htruth⟩ := ht r w
  refine (hgo hh).trans (.next (step_branch hb) ?_)
  cases hc : (ct w).1 with
  | true =>
    rw [if_neg (by simp [htruth, hc])]
    exact hyes hc v
  | false =>
    rw [if_pos (by simp [htruth, hc])]
    exact hno hc v

theorem delivers_cond {t y n : Fragment} {taken : Bool} {target : Nat}
    {ct : StateM (World V S) Bool} {cy cn : StateM (World V S) V}
    (ht : m.Tests base t stack taken ct)
    (hy : m.Delivers (base + t.size + jumpSize) y stack cy)
    (hn : m.Delivers target n stack cn)
    (htarget : target = base + t.size + jumpSize + y.size + jumpSize) :
    m.Delivers base
      (t ++ op (branchOn taken) [target] ++ y ++ op .jump [target + n.size] ++ n) stack
      (do if ← ct then cy else cn) := by
  intro r w hh
  obtain ⟨hh, hhn⟩ := hh.append
  obtain ⟨hh, hhj⟩ := hh.append
  obtain ⟨hh, hhy⟩ := hh.append
  obtain ⟨hht, hhb⟩ := hh.append
  simp only [Fragment.size_append, Fragment.size_jump, ← Nat.add_assoc] at hhn hhj hhy ⊢
  rw [← htarget] at hhn ⊢
  refine runs_cond ht hht hhb (fun hc v => ?_) fun hc v => ?_
  · rw [run_ite, hc]
    exact (hy v _ hhy).trans (.next (step_jump hhj) (.refl _))
  · rw [run_ite, hc]
    exact hn v _ hhn

theorem returns_cond {t y n : Fragment} {taken : Bool} {target : Nat}
    {ct : StateM (World V S) Bool} {cy cn : StateM (World V S) V} (he : n.Ends)
    (ht : m.Tests base t stack taken ct)
    (hy : m.Returns (base + t.size + jumpSize) y stack cy)
    (hn : m.Returns target n stack cn)
    (htarget : target = base + t.size + jumpSize + y.returning.size) :
    m.Returns base (t ++ op (branchOn taken) [target] ++ y.returning ++ n) stack
      (do if ← ct then cy else cn) := by
  intro hh r w
  rw [Fragment.returning_append _ he] at hh
  obtain ⟨hh, hhn⟩ := hh.append
  obtain ⟨hh, hhy⟩ := hh.append
  obtain ⟨hht, hhb⟩ := hh.append
  simp only [Fragment.size_append, Fragment.size_jump, ← Nat.add_assoc] at hhn hhy
  rw [← htarget] at hhn
  refine runs_cond ht hht hhb (fun hc v => ?_) fun hc v => ?_
  · rw [run_ite, hc]
    exact hy hhy v _
  · rw [run_ite, hc]
    exact hn hhn v _

/-- An operand that decides leads behind the last one. -/
theorem runs_operand {decisive : Bool} {stop : Nat} {r : V}
    {w : World V S} {o : Outcome V S}
    (hf : m.Delivers base f stack c) (hh : m.Holds base f.instructions)
    (hb : m.Holds (base + f.size) [⟨branchOn decisive, [stop]⟩])
    (hstop : m.runtime.truthy (c w).1 = decisive → m.Runs ⟨stop, (c w).1, stack, (c w).2⟩ o)
    (hnext : m.runtime.truthy (c w).1 ≠ decisive →
      m.Runs ⟨base + f.size + jumpSize, (c w).1, stack, (c w).2⟩ o) :
    m.Runs ⟨base, r, stack, w⟩ o := by
  refine (hf r w hh).trans (.next (step_branch hb) ?_)
  by_cases hc : m.runtime.truthy (c w).1 = decisive
  · rw [if_pos hc]
    exact hstop hc
  · rw [if_neg hc]
    exact hnext hc

theorem Holds.returning (h : m.Holds base (f ++ op .ret).instructions) :
    m.Holds base f.returning.instructions := by
  unfold Fragment.returning
  split
  · exact h.append.1
  · exact h

theorem run_decide (c c' : StateM (World V S) V) (decisive : Bool) (w : World V S) :
    (do
      let v ← c
      if m.runtime.truthy v = decisive then pure v else c' : StateM (World V S) V) w =
      if m.runtime.truthy (c w).1 = decisive then c w else c' (c w).2 := by
  change (if m.runtime.truthy (c w).1 = decisive then pure (c w).1 else c') (c w).2 = _
  split <;> rfl

theorem simulates_operands {g : Fragment} {c' : StateM (World V S) V} {decisive : Bool}
    {stop : Nat} (huse : use ≠ .test) (hf : m.Delivers base f stack c)
    (hg : m.Simulates use (base + f.size + jumpSize) g stack c')
    (hstop : stop = base + f.size + jumpSize + g.size) :
    m.Simulates use base (f ++ op (branchOn decisive) [stop] ++ g).landed stack (do
      let v ← c
      if m.runtime.truthy v = decisive then pure v else c') := by
  cases use with
  | test => exact absurd rfl huse
  | value =>
    refine Delivers.computes_landed fun r w hh => ?_
    obtain ⟨hh, hhg⟩ := hh.append
    obtain ⟨hhf, hhb⟩ := hh.append
    simp only [Fragment.size_append, Fragment.size_jump, ← Nat.add_assoc] at hhg ⊢
    rw [← hstop, run_decide]
    refine runs_operand hf hhf hhb (fun hc => ?_) fun hc => ?_
    · rw [if_pos hc]
      exact .refl _
    · rw [if_neg hc, hstop]
      exact hg.delivers _ _ hhg
  | tail =>
    intro hh r w
    rw [Fragment.returning_of_landing rfl, Fragment.instructions_append,
      Fragment.instructions_landed, ← Fragment.instructions_append, Fragment.append_assoc] at hh
    obtain ⟨hh, hhg⟩ := hh.append
    obtain ⟨hhf, hhb⟩ := hh.append
    have hret := hhg.append.2
    simp only [Fragment.size_append, Fragment.size_jump, ← Nat.add_assoc] at hhg hret
    rw [← hstop] at hret
    rw [run_decide]
    refine runs_operand hf hhf hhb (fun hc => ?_) fun hc => ?_
    · rw [if_pos hc]
      exact .stop (Holds.step (c := ⟨stop, _, _, _⟩) hret)
    · rw [if_neg hc]
      exact hg hhg.returning _ _

theorem simulates_sequence {g : Fragment} {c' : StateM (World V S) V} (huse : use ≠ .test)
    (he : g.Ends) (hf : m.Delivers base f stack c)
    (hg : m.Simulates use (base + f.size) g stack c') :
    m.Simulates use base (f ++ g) stack (do let _ ← c; c') := by
  have returns (h : m.Returns (base + f.size) g stack c') :
      m.Returns base (f ++ g) stack (do let _ ← c; c') :=
    Returns.after (fun w => (stack, (c w).2)) (fun _ => c') he (fun r w => ⟨_, hf r w⟩) fun _ => h
  cases use with
  | test => exact absurd rfl huse
  | tail => exact returns hg
  | value =>
    refine ⟨fun r w => (hf r w).append (hg.delivers _ _), fun r w => ?_, returns hg.returns⟩
    rw [Fragment.pushed_append f he]
    exact (hf r w).append (hg.pushes _ _)

theorem returns_let {v b : Fragment} {n : Nat} {ci : StateM (World V S) (List V)}
    {k : List V → StateM (World V S) V} (he : b.Ends) (hv : m.Stacks base v stack ci)
    (hlen : ∀ w, (ci w).1.length = n)
    (hb : ∀ vs, vs.length = n → m.Returns (base + v.size) b (stack ++ vs) (k vs)) :
    m.Returns base (v ++ b) stack (do let vs ← ci; k vs) :=
  Returns.after (fun w => (stack ++ (ci w).1, (ci w).2)) (fun w => k (ci w).1) he hv fun w =>
    hb _ (hlen w)

theorem computes_let {v b : Fragment} {n : Nat} {ci : StateM (World V S) (List V)}
    {k : List V → StateM (World V S) V} (he : b.Ends) (hv : m.Stacks base v stack ci)
    (hlen : ∀ w, (ci w).1.length = n)
    (hb : ∀ vs, vs.length = n → m.Computes (base + v.size) b (stack ++ vs) (k vs)) :
    m.Computes base ((v ++ b).skipping n) stack (do let vs ← ci; k vs) := by
  have hreturns := returns_let he hv hlen fun vs hvs => (hb vs hvs).returns
  have hbody (r : V) (w : World V S) : m.Goes base (v ++ b) ⟨r, stack, w⟩
      ⟨(k (ci w).1 (ci w).2).1, stack ++ (ci w).1, (k (ci w).1 (ci w).2).2⟩ := by
    obtain ⟨r', hgo⟩ := hv r w
    exact hgo.append ((hb _ (hlen w)).delivers r' _)
  unfold Fragment.skipping
  split
  · next hn =>
    -- Without bindings there is nothing to drop, and the body may end with a load.
    subst hn
    have hnil (w : World V S) : stack ++ (ci w).1 = stack := by
      rw [List.eq_nil_of_length_eq_zero (hlen w), List.append_nil]
    refine ⟨fun r w => ?_, fun r w => ?_, hreturns⟩
    · have hgo := hbody r w
      rw [hnil] at hgo
      exact hgo
    · obtain ⟨r', hgo⟩ := hv r w
      have hpush := hgo.append ((hb _ (hlen w)).pushes r' _)
      rw [hnil] at hpush
      rw [Fragment.pushed_append v he]
      exact hpush
  · next hn =>
    have hd : m.Delivers base (v ++ b ++ ⟨Fragment.skips n, false⟩) stack
        (do let vs ← ci; k vs) := fun r w => (hbody r w).append (goes_skips (hlen w) _ _)
    obtain ⟨front, count, hend⟩ := Fragment.endsWith_skips hn
    have hskip : (v ++ b ++ ⟨Fragment.skips n, false⟩ : Fragment) =
        v ++ b ++ ⟨front, false⟩ ++ op .skip [count] := by
      rw [Fragment.append_assoc (v ++ b), show Fragment.skips n = _ from hend]
      rfl
    rw [hskip] at hd ⊢
    exact hd.computes_instr rfl rfl

end Processor
end StackLisp
