import StackLisp.Expr.Walk
import StackLisp.Proofs.Execution
import StackLisp.Proofs.References
import StackLisp.Proofs.Rewriting
import StackLisp.Proofs.Scopes

/-! Compiled code does what the source says: it makes the same requests in the same order and comes
to the same value. -/
namespace StackLisp

open Fragment (op instr jumpSize)
open Lower (Yields branchOn negated)
open Evaluation

namespace Expr

/-- No function stands anywhere in the expression. -/
def LambdaFree (e : Expr) : Prop := ∀ x ∈ e.visited fun _ => true, x.kind ≠ .lambda

private theorem mem_visitedAll {x : Expr} {es : List Expr} :
    x ∈ visitedAll (fun _ => true) es ↔ ∃ e ∈ es, x ∈ e.visited fun _ => true := by
  induction es with
  | nil => simp [visitedAll]
  | cons e es ih => simp [visitedAll, ih]

private theorem mem_visitedBindings {x : Expr} {bs : List (Binding Expr)} :
    x ∈ visitedBindings (fun _ => true) bs ↔ ∃ b ∈ bs, x ∈ b.value.visited fun _ => true := by
  induction bs with
  | nil => simp [visitedBindings]
  | cons b bs ih => simp [visitedBindings, ih]

theorem LambdaFree.child {e x : Expr} (h : e.LambdaFree) (hx : x ∈ e.children) :
    x.LambdaFree := by
  intro y hy
  refine h y ?_
  cases e with
  | literal | ident => simp [children] at hx
  | call | apply =>
    simp only [children, List.mem_cons] at hx
    rcases hx with rfl | hx
    · simp [visited, hy]
    · simp only [visited, if_true, List.mem_cons, List.mem_append, mem_visitedAll]
      exact .inr (.inr ⟨x, hx, hy⟩)
  | cond pos test yes no =>
    cases no <;> simp only [children, Option.toList, List.mem_cons, List.not_mem_nil,
      or_false] at hx <;> simp only [visited, if_true, List.mem_cons, List.mem_append] <;> grind
  | lambda | block | and | or =>
    simp only [visited, if_true, List.mem_cons, mem_visitedAll]
    exact .inr ⟨x, hx, hy⟩
  | define | const =>
    simp only [children, List.mem_singleton] at hx
    subst hx
    simp [visited, hy]
  | letIn pos bs body =>
    simp only [children, List.mem_append, List.mem_map] at hx
    simp only [visited, if_true, List.mem_cons, List.mem_append, mem_visitedAll,
      mem_visitedBindings]
    rcases hx with ⟨b, hb, rfl⟩ | hx
    · exact .inr (.inl ⟨b, hb, hy⟩)
    · exact .inr (.inr ⟨x, hx, hy⟩)

end Expr

namespace Processor

variable {V S : Type} {m : Processor V S} {base : Nat} {stack : List V} {f : Fragment}

theorem computes_load {ctx : Context} {pos : Position} {v : Value} {d d' : Draft}
    (h : Yields (Lower.load ctx pos v) d f d') (hpool : d'.pool <+: m.pool) :
    m.Computes base f stack (pure (m.runtime.ofValue v)) := by
  rcases Lower.yields_load.1 h with ⟨o, ho, rfl, -⟩ | ⟨-, i, hi, rfl⟩
  · unfold Lower.immediate at ho
    split at ho <;> cases ho <;> exact computes_instr rfl fun _ _ _ _ => rfl
  · refine computes_instr (isTerminal_indexed _ _ _) fun pc next r w => ?_
    have hi' := hpool.getElem?_eq_some hi.interned.1
    rw [execute_indexed, executeIndexed, hi']
    rfl

theorem computes_name {ctx : Context} {pos : Position} {n : Bytes} {d d' : Draft}
    {scope : Scope V} (h : Yields (Lower.loadName ctx pos n) d f d') (hpool : d'.pool <+: m.pool)
    (hshows : ctx.frame.Shows scope stack) :
    m.Computes base f stack (name m.runtime ctx.outside scope n) := by
  have hlook := lookup_visible hshows n
  unfold name
  rcases Lower.yields_loadName h with ⟨s, hs, rfl, -⟩ | ⟨v, hv, hload⟩ | ⟨hs, hv, -, i, hi, rfl⟩
  · rcases hshows.lookup n with ⟨s', v, hs', hv, hsv⟩ | ⟨hs', -⟩
    · have hss : s' = s := by simpa [hs'] using Context.lookup_eq_slot.1 hs
      subst hss
      rw [hv]
      refine computes_instr (isTerminal_indexed _ _ _) fun pc next r w => ?_
      rw [execute_indexed, executeIndexed, hsv]
      rfl
    · simp [Context.lookup_eq_slot.1 hs] at hs'
  · rcases hshows.lookup n with ⟨s', v', hs', -, -⟩ | ⟨-, hn⟩
    · simp [Context.lookup_eq_slot.2 hs'] at hv
    · rw [hn]
      rw [hv] at hlook
      rw [Resolution.unplaced_eq_constant.1 hlook]
      exact computes_load hload hpool
  · rcases hshows.lookup n with ⟨s', v', hs', -, -⟩ | ⟨-, hn⟩
    · exact absurd (Context.lookup_eq_slot.2 hs') (hs s')
    · simp only [hn]
      split
      · next v hv' =>
        rw [hv'] at hlook
        exact absurd (Resolution.unplaced_eq_constant.1 hlook.symm) (hv v)
      · refine computes_instr (isTerminal_indexed _ _ _) fun pc next r w => ?_
        rw [execute_indexed, executeIndexed, hpool.getElem?_eq_some hi.interned.1]
        rfl

/-- What the code of a part does, by what the part means. -/
def Means (m : Processor V S) (ctx : Context) (scope : Scope V) (stack : List V) (use : Use)
    (base : Nat) (f : Fragment) : Part → Prop
  | .expr e =>
    if use = .test then
      m.Tests base f stack (negated ctx e) (truth m.runtime ctx.outside scope e)
    else m.Simulates use base f stack (value m.runtime ctx.outside scope e)
  | .bare e => m.Simulates use base f stack (value m.runtime ctx.outside scope e)
  | .otherwise no =>
    use ≠ .test → m.Simulates use base f stack (otherwise m.runtime ctx.outside scope no)
  | .sequence es =>
    use ≠ .test → m.Simulates use base f stack (last m.runtime ctx.outside scope es)
  | .operands decisive es =>
    use ≠ .test → m.Simulates use base f stack (first m.runtime ctx.outside scope decisive es)
  | .operandAt i es =>
    if use = .test then
      ∀ e, es[i]? = some e →
        m.Tests base f stack (negated ctx e) (truth m.runtime ctx.outside scope e)
    else m.Simulates use base f stack (valueAt m.runtime ctx.outside scope i es)
  | .arguments es => m.Stacks base f stack (values m.runtime ctx.outside scope es)
  | .spread es => m.Spreads base f stack (spread m.runtime ctx.outside scope es)
  | .values bs => m.Stacks base f stack (initial m.runtime ctx.outside scope bs)
  | .function _ _ _ _ _ => True

variable {ctx : Context} {scope : Scope V} {use : Use} {d d' : Draft}

theorem Means.expr {e : Expr} (h : m.Means ctx scope stack use base f (.expr e))
    (huse : use ≠ .test) :
    m.Simulates use base f stack (value m.runtime ctx.outside scope e) := by
  simpa only [Means, if_neg huse] using h

theorem Means.operandAt {i : Nat} {es : List Expr}
    (h : m.Means ctx scope stack use base f (.operandAt i es)) (huse : use ≠ .test) :
    m.Simulates use base f stack (valueAt m.runtime ctx.outside scope i es) := by
  simpa only [Means, if_neg huse] using h

/-- A condition that is no negation is tested by its value. -/
theorem tests_value {e : Expr} (hshows : ctx.frame.Shows scope stack)
    (hstrip : Lower.strips ctx e = false)
    (h : m.Delivers base f stack (value m.runtime ctx.outside scope e)) :
    m.Tests base f stack (negated ctx e) (truth m.runtime ctx.outside scope e) := by
  have hneg : negated ctx e = false := by
    cases e <;> simp_all [negated, Lower.strips]
  have htruth : truth m.runtime ctx.outside scope e =
      m.runtime.truthy <$> value m.runtime ctx.outside scope e := by
    cases e with
    | call pos fn args =>
      cases args with
      | nil => rw [truth]; simp
      | cons x rest =>
        cases rest with
        | nil =>
          have hnot : isNot ctx.outside scope fn = false := (isNot_visible hshows fn).trans hstrip
          rw [truth, hnot]
          rfl
        | cons => rw [truth]; simp
    | _ => rw [truth]; simp
  rw [hneg, htruth]
  exact fun r w => ⟨_, h r w, (Bool.xor_false _).symm⟩

theorem tests_negation {pos : Position} {fn x : Expr} (hshows : ctx.frame.Shows scope stack)
    (hn : Lower.isNegation ctx fn 1 = true)
    (h : m.Tests base f stack (negated ctx x) (truth m.runtime ctx.outside scope x)) :
    m.Tests base f stack (negated ctx (.call pos fn [x]))
      (truth m.runtime ctx.outside scope (.call pos fn [x])) := by
  have hneg : negated ctx (.call pos fn [x]) = !negated ctx x := by
    simp [negated, Lower.negatedFirst, hn]
  have htruth : truth m.runtime ctx.outside scope (.call pos fn [x]) =
      Bool.not <$> truth m.runtime ctx.outside scope x := by
    rw [truth, isNot_visible hshows, hn]
    rfl
  intro r w
  obtain ⟨v, hgo, hv⟩ := h r w
  rw [hneg, htruth]
  refine ⟨v, hgo, hv.trans ?_⟩
  change _ = ((!(truth m.runtime ctx.outside scope x w).1) ^^ !negated ctx x)
  simp

section calls
variable {pos : Position} {fn : Expr} {args : List Expr} {a : Fragment}

theorem simulates_callSelf (hc : callee ctx.outside scope fn = .self)
    (ha : m.Stacks base a stack (values m.runtime ctx.outside scope args)) :
    m.Simulates use base
      (a ++ op (if use = .tail then .tailCallSelf else .callSelf) [args.length]) stack
      (value m.runtime ctx.outside scope (.call pos fn args)) := by
  rw [value, hc]
  by_cases huse : use = .tail
  · subst huse
    refine returns_request rfl id fun r w => (ha r w).imp fun r' hgo => ⟨hgo, fun pc next => ?_⟩
    rw [← length_values args w]
    exact execute_tailCallSelf _ pc next r' _
  · rw [if_neg huse]
    refine Computes.simulates (Delivers.computes_instr ?_ rfl rfl) use
    refine delivers_request id fun r w => (ha r w).imp fun r' hgo => ⟨hgo, fun pc next => ?_⟩
    rw [← length_values args w]
    exact execute_callSelf _ pc next r' _

theorem simulates_callNamed {v : Value} {i : Nat} (hc : callee ctx.outside scope fn = .named v)
    (hi : m.pool[i]? = some (.value v))
    (ha : m.Stacks base a stack (values m.runtime ctx.outside scope args)) :
    m.Simulates use base (a ++ instr (.indexed .callConst i [args.length])) stack
      (value m.runtime ctx.outside scope (.call pos fn args)) := by
  have hpush : (Instruction.indexed .callConst i [args.length]).op.pushForm = none := by
    by_cases hk : i < 8 <;> simp [Instruction.indexed, hk, Opcode.pushForm, Family.pushForm]
  rw [value, hc]
  refine Computes.simulates (Delivers.computes_instr ?_ hpush (isTerminal_indexed _ _ _)) use
  refine delivers_request id fun r w => (ha r w).imp fun r' hgo => ⟨hgo, fun pc next => ?_⟩
  rw [← length_values args w]
  exact execute_callConst hi _ pc next r' _

theorem simulates_callComputed (hc : callee ctx.outside scope fn = .computed)
    (hf : m.Pushes base f stack (value m.runtime ctx.outside scope fn))
    (ha : ∀ v, m.Stacks (base + f.pushed.size) a (stack ++ [v])
      (values m.runtime ctx.outside scope args)) :
    m.Simulates use base (f.pushed ++ a ++ op .call [args.length]) stack
      (value m.runtime ctx.outside scope (.call pos fn args)) := by
  rw [value, hc]
  generalize value m.runtime ctx.outside scope fn = c at hf ⊢
  refine Computes.simulates (Delivers.computes_instr (fun r w => ?_) rfl rfl) use
  obtain ⟨r', hgo⟩ := ha (c w).1 (c w).1 (c w).2
  rw [List.append_assoc] at hgo
  refine ((hf r w).append hgo).append (goes_instr ?_)
  rw [← length_values args]
  exact execute_call _ _ _ _ _ _

theorem simulates_applySelf (hc : callee ctx.outside scope fn = .self)
    (ha : m.Spreads base a stack (spread m.runtime ctx.outside scope args)) :
    m.Simulates use base
      (a ++ op (if use = .tail then .tailApplySelf else .applySelf) [args.length - 1]) stack
      (value m.runtime ctx.outside scope (.apply pos fn args)) := by
  rw [value, hc]
  by_cases huse : use = .tail
  · subst huse
    refine returns_request rfl Prod.fst fun r w => ⟨_, ha r w, fun pc next => ?_⟩
    rw [← length_spread args w]
    exact execute_tailApplySelf _ pc next _ _
  · rw [if_neg huse]
    refine Computes.simulates (Delivers.computes_instr ?_ rfl rfl) use
    refine delivers_request Prod.fst fun r w => ⟨_, ha r w, fun pc next => ?_⟩
    rw [← length_spread args w]
    exact execute_applySelf _ pc next _ _

theorem simulates_applyComputed (hc : callee ctx.outside scope fn ≠ .self)
    (hf : m.Pushes base f stack (value m.runtime ctx.outside scope fn))
    (ha : ∀ v, m.Spreads (base + f.pushed.size) a (stack ++ [v])
      (spread m.runtime ctx.outside scope args)) :
    m.Simulates use base (f.pushed ++ a ++ op .apply [args.length - 1]) stack
      (value m.runtime ctx.outside scope (.apply pos fn args)) := by
  rw [value]
  generalize value m.runtime ctx.outside scope fn = c at hf ⊢
  split
  · next h => exact absurd h hc
  · refine Computes.simulates (Delivers.computes_instr (fun r w => ?_) rfl rfl) use
    have hgo := ha (c w).1 (c w).1 (c w).2
    rw [List.append_assoc] at hgo
    refine ((hf r w).append hgo).append (goes_instr ?_)
    rw [← length_spread args]
    exact execute_apply _ _ _ _ _ _

end calls

section builtins
variable {pos : Position} {fn : Expr} {args : List Expr} {b : Builtin} {i : Nat}

theorem simulates_operand (hb : callee ctx.outside scope fn = .builtin b)
    (hfold : (Expr.call pos fn args).fold? (visible ctx.outside scope) = none)
    (hr : rewriting? b (args.map fun e => e.fold? (visible ctx.outside scope)) = some (i, none))
    (hf : m.Computes base f stack (valueAt m.runtime ctx.outside scope i args)) :
    m.Simulates use base f stack (value m.runtime ctx.outside scope (.call pos fn args)) := by
  rw [value_builtin hb hfold, hr]
  exact hf.simulates use

theorem simulates_unary {c : Builtin} {p : Primitive} (hp : c.id.toNat = p.number)
    (hb : callee ctx.outside scope fn = .builtin b)
    (hfold : (Expr.call pos fn args).fold? (visible ctx.outside scope) = none)
    (hr : rewriting? b (args.map fun e => e.fold? (visible ctx.outside scope)) =
      some (i, some (.call p)))
    (hf : m.Pushes base f stack (valueAt m.runtime ctx.outside scope i args)) :
    m.Simulates use base (f.pushed ++ Lower.callBuiltin c 1) stack
      (value m.runtime ctx.outside scope (.call pos fn args)) := by
  rw [value_builtin hb hfold, hr]
  refine Computes.simulates (Delivers.computes_callBuiltin fun r w => ?_) use
  have hcall := (hf r w).append (goes_callBuiltin c [_] _ _)
  rw [hp] at hcall
  exact hcall

theorem simulates_step {o : Opcode} {rest : Rest}
    (ho : (o = .inc ∧ rest = .increment) ∨ (o = .dec ∧ rest = .decrement))
    (hb : callee ctx.outside scope fn = .builtin b)
    (hfold : (Expr.call pos fn args).fold? (visible ctx.outside scope) = none)
    (hr : rewriting? b (args.map fun e => e.fold? (visible ctx.outside scope)) =
      some (i, some rest))
    (hf : m.Delivers base f stack (valueAt m.runtime ctx.outside scope i args)) :
    m.Simulates use base (f ++ op o) stack
      (value m.runtime ctx.outside scope (.call pos fn args)) := by
  rw [value_builtin hb hfold, hr]
  refine Computes.simulates ?_ use
  rcases ho with ⟨rfl, rfl⟩ | ⟨rfl, rfl⟩ <;>
    exact Delivers.computes_instr (fun r w => (hf r w).append (goes_instr rfl)) rfl rfl

theorem simulates_plain {a : Fragment} (hb : callee ctx.outside scope fn = .builtin b)
    (hfold : (Expr.call pos fn args).fold? (visible ctx.outside scope) = none)
    (hr : rewriting? b (args.map fun e => e.fold? (visible ctx.outside scope)) = none)
    (ha : m.Stacks base a stack (values m.runtime ctx.outside scope args)) :
    m.Simulates use base (a ++ Lower.callBuiltin b args.length) stack
      (value m.runtime ctx.outside scope (.call pos fn args)) := by
  rw [value_builtin hb hfold, hr]
  refine Computes.simulates (Delivers.computes_callBuiltin fun r w => ?_) use
  obtain ⟨r', hgo⟩ := ha r w
  rw [← length_values args w]
  exact hgo.append (goes_callBuiltin b _ r' _)

end builtins

end Processor

/-- The parts of an expression without functions have none either. -/
theorem Expr.LambdaFree.all {e : Expr} {es : List Expr} (h : ∀ x ∈ [e], x.LambdaFree)
    (hes : es ⊆ e.children) : ∀ x ∈ es, x.LambdaFree :=
  fun x hx => (h e (by simp)).child (hes hx)

namespace Emits

open Processor

variable {V S : Type} {m : Processor V S}

theorem means {ctx : Context} {use : Use} {base depth : Nat} {part : Part} {d d' : Draft}
    {f : Fragment} (h : Emits ctx use base depth part d f d')
    (hfree : ∀ e ∈ part.exprs, e.LambdaFree) (hpool : d'.pool <+: m.pool) {scope : Scope V}
    {stack : List V} (hshows : ctx.frame.Shows scope stack) (hdepth : stack.length = depth)
    (hunary : ctx.options.builtins.IdentityUnary) :
    m.Means ctx scope stack use base f part := by
  induction h generalizing scope stack with
  | @marked _ use _ _ e _ _ _ hstrip hbare ih =>
    have hm := ih hfree hpool hshows hdepth hunary
    rw [Means]
    split
    · next huse =>
      subst huse
      exact tests_value hshows (hstrip rfl) hm
    · exact Simulates.marked hm (hbare.ends rfl) _
  | @negation _ _ _ _ fn args _ _ _ hneg _ ih =>
    obtain ⟨x, rfl⟩ := List.length_eq_one_iff.1 (Lower.isNegation_argc hneg)
    have hx := ih (.all hfree (by simp [Part.exprs, Expr.children])) hpool hshows hdepth hunary
    exact tests_negation hshows hneg (hx x rfl)
  | literal hy =>
    rw [Means, value]
    exact (computes_load hy hpool).simulates _
  | ident hy =>
    rw [Means, value]
    exact (computes_name hy hpool hshows).simulates _
  | callSelf _ hc _ _ ih =>
    have ha := ih (.all hfree (List.subset_cons_self _ _)) hpool hshows hdepth hunary
    exact simulates_callSelf (callee_visible hshows hc) ha
  | callNamed _ hc _ hi hargs ih =>
    have ha := ih (.all hfree (List.subset_cons_self _ _)) hpool hshows hdepth hunary
    have hconst := (hargs.grows.pool.trans hpool).getElem?_eq_some hi.interned.1
    exact simulates_callNamed (callee_visible hshows hc) hconst ha
  | callFolded _ hc _ hf hy =>
    rw [Means, value, callee_visible hshows hc]
    simp only [fold?_visible hshows, hf]
    exact (computes_load hy hpool).simulates _
  | callOperand _ hc haccepts hf hs _ ih =>
    have hone {g} := hc.length_known_of_identity g hunary haccepts
    have hi := ih (.all hfree (List.subset_cons_self _ _)) hpool hshows hdepth hunary
    simp only [← fold?_visible hshows] at hf hs
    exact simulates_operand (callee_visible hshows hc) hf
      (Lower.Shortcut.rewriting_of_operand hone hs) (hi.operandAt (by simp))
  | callUnary _ hc haccepts hf hs _ ih =>
    have hone {g} := hc.length_known_of_identity g hunary haccepts
    have hi := ih (.all hfree (List.subset_cons_self _ _)) hpool hshows hdepth hunary
    simp only [← fold?_visible hshows] at hf hs
    obtain ⟨p, hr, hp⟩ := Lower.Shortcut.rewriting_of_unary hone hs
    exact simulates_unary hp (callee_visible hshows hc) hf hr (hi.operandAt (by simp)).pushes
  | callStep _ hc haccepts hf hs _ ih =>
    have hone {g} := hc.length_known_of_identity g hunary haccepts
    have hi := ih (.all hfree (List.subset_cons_self _ _)) hpool hshows hdepth hunary
    have hd := (hi.operandAt (by simp)).delivers
    simp only [← fold?_visible hshows] at hf hs
    rcases Lower.Shortcut.rewriting_of_step hone hs with ⟨ho, hr⟩ | ⟨ho, hr⟩
    · exact simulates_step (.inl ⟨ho, rfl⟩) (callee_visible hshows hc) hf hr hd
    · exact simulates_step (.inr ⟨ho, rfl⟩) (callee_visible hshows hc) hf hr hd
  | callPlain _ hc haccepts hf hs _ ih =>
    have hone {g} := hc.length_known_of_identity g hunary haccepts
    have ha := ih (.all hfree (List.subset_cons_self _ _)) hpool hshows hdepth hunary
    simp only [← fold?_visible hshows] at hf hs
    exact simulates_plain (callee_visible hshows hc) hf
      (Lower.Shortcut.rewriting_of_none hone hs) ha
  | callComputed _ hc hf ha ih₁ ih₂ =>
    have hfn := ih₁ (.all hfree (by simp [Part.exprs, Expr.children]))
      (ha.grows.pool.trans hpool) hshows hdepth hunary
    refine simulates_callComputed (callee_visible hshows hc) (hfn.expr (by simp)).pushes
      fun v => ?_
    exact ih₂ (.all hfree (List.subset_cons_self _ _)) hpool (hshows.push [v])
      (by simp [hdepth]) hunary
  | applySelf _ _ hc _ _ ih =>
    have ha := ih (.all hfree (List.subset_cons_self _ _)) hpool hshows hdepth hunary
    exact simulates_applySelf (callee_visible hshows hc) ha
  | applyComputed _ _ hc hne hf ha ih₁ ih₂ =>
    have hfn := ih₁ (.all hfree (by simp [Part.exprs, Expr.children]))
      (ha.grows.pool.trans hpool) hshows hdepth hunary
    refine simulates_applyComputed (callee_visible hshows hc ▸ hne) (hfn.expr (by simp)).pushes
      fun v => ?_
    exact ih₂ (.all hfree (List.subset_cons_self _ _)) hpool (hshows.push [v])
      (by simp [hdepth]) hunary
  | @condTrue _ use _ _ _ _ _ _ _ _ _ hf _ ih =>
    have hyes := ih (.all hfree (by simp [Part.exprs, Expr.children])) hpool hshows hdepth hunary
    rw [Means, value, fold?_visible hshows, hf]
    exact Simulates.of_last (hyes.expr use.last_ne_test)
  | @condFalse _ use _ _ _ _ _ _ _ _ _ hf _ ih =>
    have hno := ih (.all hfree (by simp [Part.exprs, Expr.children])) hpool hshows hdepth hunary
    rw [Means, value, fold?_visible hshows, hf]
    exact Simulates.of_last (hno use.last_ne_test)
  | condTail hf ht hy htarget _ hn ih₁ ih₂ ih₃ =>
    have htest := ih₁ (.all hfree (by simp [Part.exprs, Expr.children]))
      ((hy.grows.trans hn.grows).pool.trans hpool) hshows hdepth hunary
    have hyes := ih₂ (.all hfree (by simp [Part.exprs, Expr.children]))
      (hn.grows.pool.trans hpool) hshows hdepth hunary
    have hno := ih₃ (.all hfree (by simp [Part.exprs, Expr.children])) hpool hshows hdepth hunary
    simp only [← fold?_visible hshows] at hf
    rw [Means, value_cond hf]
    exact returns_cond (hn.ends rfl) htest (hyes.expr (by simp)) (hno (by simp)) htarget
  | condValue huse hf ht hy htarget _ hn _ ih₁ ih₂ ih₃ =>
    have htest := ih₁ (.all hfree (by simp [Part.exprs, Expr.children]))
      ((hy.grows.trans hn.grows).pool.trans hpool) hshows hdepth hunary
    have hyes := ih₂ (.all hfree (by simp [Part.exprs, Expr.children]))
      (hn.grows.pool.trans hpool) hshows hdepth hunary
    have hno := ih₃ (.all hfree (by simp [Part.exprs, Expr.children])) hpool hshows hdepth hunary
    simp only [← fold?_visible hshows] at hf
    rw [Means, value_cond hf]
    have hd := delivers_cond htest (hyes.expr (by simp)).delivers
      (Computes.delivers (hno (by simp))) htarget
    exact hd.computes_landed.simulates _
  | @block _ use _ _ _ _ _ _ _ _ ih =>
    have hm := ih (.all hfree (by simp [Part.exprs, Expr.children])) hpool hshows hdepth hunary
    rw [Means, value]
    exact Simulates.of_last (hm use.last_ne_test)
  | letTail hv hb ih₁ ih₂ =>
    have hvals := ih₁ (.all hfree (List.subset_append_left _ _)) (hb.grows.pool.trans hpool)
      hshows hdepth hunary
    rw [Means, value]
    refine returns_let (hb.ends rfl) hvals (length_initial _) fun vs hvs => ?_
    subst hdepth
    have hbody := ih₂ (.all hfree (List.subset_append_right _ _)) hpool
      (hshows.bind (hvs.trans (List.length_map _).symm)) (by simp [hvs]) hunary
    rw [Means, Context.outside_bind] at hbody
    exact hbody (by simp)
  | letValue huse hv hb ih₁ ih₂ =>
    have hvals := ih₁ (.all hfree (List.subset_append_left _ _)) (hb.grows.pool.trans hpool)
      hshows hdepth hunary
    rw [Means, value]
    refine Computes.simulates ?_ _
    refine computes_let (hb.ends rfl) hvals (length_initial _) fun vs hvs => ?_
    subst hdepth
    have hbody := ih₂ (.all hfree (List.subset_append_right _ _)) hpool
      (hshows.bind (hvs.trans (List.length_map _).symm)) (by simp [hvs]) hunary
    rw [Means, Context.outside_bind] at hbody
    exact hbody (by simp)
  | andEmpty | orEmpty =>
    rw [Means, value, first]
    exact (computes_instr rfl fun _ _ _ _ => rfl).simulates _
  | @and _ use _ _ _ _ _ _ _ _ _ ih =>
    have hm := ih (.all hfree (by simp [Part.exprs, Expr.children])) hpool hshows hdepth hunary
    rw [Means, value]
    exact Simulates.of_last (hm use.last_ne_test)
  | @or _ use _ _ _ _ _ _ _ _ _ ih =>
    have hm := ih (.all hfree (by simp [Part.exprs, Expr.children])) hpool hshows hdepth hunary
    rw [Means, value]
    exact Simulates.of_last (hm use.last_ne_test)
  | lambda =>
    have hself := hfree _ List.mem_cons_self
    exact absurd rfl (hself _ (by rw [Expr.visited]; exact List.mem_cons_self))
  | function => trivial
  | otherwiseNone =>
    intro _
    rw [otherwise]
    exact (computes_instr rfl fun _ _ _ _ => rfl).simulates _
  | otherwiseSome _ ih =>
    intro huse
    rw [otherwise]
    exact (ih hfree hpool hshows hdepth hunary).expr huse
  | sequenceNil =>
    intro _
    rw [last]
    exact (computes_instr rfl fun _ _ _ _ => rfl).simulates _
  | sequenceOne _ ih =>
    intro huse
    rw [last]
    exact (ih hfree hpool hshows hdepth hunary).expr huse
  | sequenceCons hne hf hg ih₁ ih₂ =>
    intro huse
    have he := ih₁ (fun x hx => hfree x (by simp_all [Part.exprs])) (hg.grows.pool.trans hpool)
      hshows hdepth hunary
    have hrest := ih₂ (fun x hx => hfree x (List.mem_cons_of_mem _ hx)) hpool hshows hdepth hunary
    rw [last]
    · exact simulates_sequence huse (hg.ends rfl) (he.expr (by simp)).delivers (hrest huse)
    · simp [hne]
  | argumentsNil =>
    rw [Means, values]
    exact stacks_nil
  | argumentsCons hf hg ih₁ ih₂ =>
    have he := ih₁ (fun x hx => hfree x (by simp_all [Part.exprs])) (hg.grows.pool.trans hpool)
      hshows hdepth hunary
    rw [Means, values]
    refine (he.expr (by simp)).pushes.stacks fun v => ?_
    exact ih₂ (fun x hx => hfree x (List.mem_cons_of_mem _ hx)) hpool (hshows.push [v])
      (by simp [hdepth]) hunary
  | spreadOne _ ih =>
    rw [Means, spread]
    exact ((ih hfree hpool hshows hdepth hunary).expr (by simp)).delivers.spreads
  | spreadCons hne hf hg ih₁ ih₂ =>
    have he := ih₁ (fun x hx => hfree x (by simp_all [Part.exprs])) (hg.grows.pool.trans hpool)
      hshows hdepth hunary
    rw [Means, spread]
    · refine (he.expr (by simp)).pushes.spreads fun v => ?_
      exact ih₂ (fun x hx => hfree x (List.mem_cons_of_mem _ hx)) hpool (hshows.push [v])
        (by simp [hdepth]) hunary
    · simp [hne]
  | operandsOne _ ih =>
    intro huse
    rw [first]
    exact (ih hfree hpool hshows hdepth hunary).expr huse
  | operandsCons hne hf hg hstop _ ih₁ ih₂ =>
    intro huse
    have he := ih₁ (fun x hx => hfree x (by simp_all [Part.exprs])) (hg.grows.pool.trans hpool)
      hshows hdepth hunary
    have hrest := ih₂ (fun x hx => hfree x (List.mem_cons_of_mem _ hx)) hpool hshows hdepth hunary
    rw [first]
    · exact simulates_operands huse (he.expr (by simp)).delivers (hrest huse) hstop
    · simp [hne]
  | operandAt hget _ ih =>
    have hm := ih (fun x hx => hfree x (by simp_all [Part.exprs, List.mem_of_getElem? hget]))
      hpool hshows hdepth hunary
    rw [Means]
    split
    · next huse =>
      intro e' he'
      cases hget.symm.trans he'
      simpa only [Means, if_pos huse] using hm
    · next huse =>
      rw [valueAt_of_getElem? hget]
      exact hm.expr huse
  | operandAtNone hget =>
    rw [Means]
    split
    · intro e' he'
      simp [hget] at he'
    · rw [valueAt_of_none hget]
      exact (computes_instr rfl fun _ _ _ _ => rfl).simulates _
  | valuesNil =>
    rw [Means, initial]
    exact stacks_nil
  | valuesCons _ hf hg ih₁ ih₂ =>
    have he := ih₁ (fun x hx => hfree x (by simp_all [Part.exprs])) (hg.grows.pool.trans hpool)
      hshows hdepth hunary
    rw [Means, initial]
    refine (he.expr (by simp)).pushes.stacks fun v => ?_
    exact ih₂ (fun x hx => hfree x (List.mem_cons_of_mem _ hx)) hpool (hshows.push [v])
      (by simp [hdepth]) hunary

end Emits

/-- The bytes of a piece stand at the given offset. -/
def Fragment.StandsIn (f : Fragment) (code : Bytes) (base : Nat) : Prop :=
  ∃ before behind, code = before ++ f.code ++ behind ∧ before.length = base

theorem Fragment.StandsIn.holds {V S : Type} {m : Processor V S} {f : Fragment} {base : Nat}
    {d : Draft} (h : f.StandsIn m.code base) (hf : f.Sound d) : m.Holds base f.instructions :=
  ⟨h, fun i hi => (hf i hi).fits⟩

namespace Lower

/-- The bytes of an expression, run on a stack of the compiler's depth that holds the locals at
their slots, make the requests of the source in its order. They leave the value of the source in
the register and the stack as it was, or in tail position return that value. The identity has to
take one argument. -/
theorem expr_preserves_meaning {V S : Type} (rt : Runtime V S) (scope : Scope V) (tail : Bool)
    {ctx : Context} {base depth : Nat} {e : Expr} {d d' : Draft} {f : Fragment}
    (hlower : expr ctx (if tail then .tail else .value) base depth e d = (.ok f, d'))
    (hfree : e.LambdaFree) (hslots : ctx.frame.Below Limit.slots)
    (hpool : d.pool.length ≤ Limit.constants) {stack : List V}
    (hlocals : ctx.frame.Shows scope stack) (hdepth : stack.length = depth)
    (hunary : ctx.options.builtins.IdentityUnary)
    {pool : List Constant} (hgrown : d'.pool <+: pool) (code : Bytes) (r : V) (w : World V S) :
    (tail = false → f.StandsIn code base →
      (Processor.mk rt pool code).Runs ⟨base, r, stack, w⟩ (.running
        ⟨base + f.size, (value rt ctx.outside scope e w).1, stack,
          (value rt ctx.outside scope e w).2⟩)) ∧
    (tail = true → f.returning.StandsIn code base →
      (Processor.mk rt pool code).Runs ⟨base, r, stack, w⟩
        (.returned (value rt ctx.outside scope e w).1 (value rt ctx.outside scope e w).2)) := by
  have hemits := adequate e hlower
  have hsound := hemits.sound hslots hpool
  have hmeans := hemits.means (m := ⟨rt, pool, code⟩) (by simpa [Part.exprs] using hfree) hgrown
    hlocals hdepth hunary
  constructor
  · rintro rfl hcode
    exact (hmeans.expr (by simp)).delivers r w (hcode.holds hsound)
  · rintro rfl hcode
    exact hmeans.expr (by simp) (hcode.holds hsound.returning) r w

end Lower

/-- A runtime that numbers its answers. -/
def Runtime.counting : Runtime Value Nat where
  constant
    | .value v => v
    | _ => .unit
  truthy v := v != .bool false
  answer _ s := (.int (Int64.ofNat s), s + 1)

/-- `(if (not a) 3 (+ a 1))` -/
def Expr.choice : Expr :=
  .cond {} (.call {} (.ident {} (Text.lit "not")) [.ident {} [97]]) (.literal {} (.int 3))
    (some (.call {} (.ident {} [43]) [.ident {} [97], .literal {} (.int 1)]))

theorem Evaluation.value_choice (w : World Value Nat) :
    value .counting { options := {}, env := {} } [([97], .bool true)] .choice w
      = Runtime.counting.ask (.increment (.bool true)) w := by
  have hname (pos : Position) : value .counting { options := {}, env := {} }
      [([97], .bool true)] (.ident pos [97]) = pure (.bool true) := by
    rw [value]
    rfl
  have hadd : callee { options := {}, env := {} } [([97], Value.bool true)] (.ident {} [43])
      = .builtin (.ofPrimitive .add) := by
    decide +kernel
  have hrest : rewriting? (.ofPrimitive .add) ([Expr.ident {} [97], .literal {} (.int 1)].map
      fun e => e.fold? (visible { options := {}, env := {} } [([97], Value.bool true)]))
      = some (0, some .increment) := by
    decide +kernel
  rw [Expr.choice, value_cond (by decide +kernel), truth, if_pos (by decide +kernel), truth, hname,
    otherwise, value_builtin hadd (by decide +kernel), hrest]
  · simp only [valueAt, hname, compute]
    rfl
  · simp

/-- With a true value in the slot of `a`, the code tests it without the negation, asks for one
increment and returns its answer. -/
theorem Lower.choice_runs :
    let ctx : Context := { options := {}, env := {}, frame := { locals := [([97], 0)] } }
    ∃ f d', expr ctx .tail 0 1 .choice {} = (.ok f, d') ∧
      f.returning.code = [2, 74, 5, 20, 87, 2, 76, 87] ∧
      (Processor.mk .counting d'.pool f.returning.code).Runs ⟨0, .unit, [.bool true], ⟨5, []⟩⟩
        (.returned (.int 5) ⟨6, [.increment (.bool true)]⟩) := by
  intro ctx
  have hlower : expr ctx .tail 0 1 .choice {} = (.ok _, _) := rfl
  refine ⟨_, _, hlower, by decide +kernel, ?_⟩
  have hlocals : ctx.frame.Shows [([97], Value.bool true)] [.bool true] := rfl
  have hrun := (expr_preserves_meaning .counting [([97], Value.bool true)] true hlower
    (by unfold Expr.LambdaFree; decide) (by unfold Frame.Below; decide) (by decide) hlocals rfl
    (by unfold BuiltinTable.IdentityUnary; decide +kernel) List.prefix_rfl _ .unit ⟨5, []⟩).2 rfl
    ⟨[], [], rfl, rfl⟩
  rwa [show ctx.outside = { options := {}, env := {} } from rfl, value_choice] at hrun

/-- The function `f` of `x`, where the identity takes two arguments. -/
def Context.selective : Context where
  options := { builtins := .selective }
  env := {}
  frame := { name := [102], params := 1, locals := [([120], 0)] }

/-- `(id x (f x))` -/
def Expr.selection : Expr :=
  .call {} (.ident {} (Text.lit "id"))
    [.ident {} [120], .call {} (.ident {} [102]) [.ident {} [120]]]

theorem Evaluation.value_selection (w : World Value Nat) :
    value .counting Context.selective.outside [([120], .unit)] .selection w =
      (do
        let v ← Runtime.counting.ask (.self [.unit])
        Runtime.counting.ask (.builtin 14 [.unit, v])) w := by
  have hname (pos : Position) : value .counting Context.selective.outside [([120], .unit)]
      (.ident pos [120]) = pure .unit := by
    rw [value]
    rfl
  have hidentity : callee Context.selective.outside [([120], Value.unit)]
      (.ident {} (Text.lit "id")) = .builtin ⟨Text.lit "id", 14, .exactly 2⟩ := by
    decide +kernel
  have hself : callee Context.selective.outside [([120], Value.unit)] (.ident {} [102])
      = .self := by
    decide +kernel
  rw [Expr.selection, value_builtin hidentity (by decide +kernel)]
  simp only [values, hname, value, hself]
  rfl

/-- The compiler takes the first argument for the identity of any number of arguments. The code
makes no request, where the source calls the function and then the identity. -/
theorem Lower.selection_omits_requests :
    ∃ f d', expr .selective .tail 0 1 .selection {} = (.ok f, d') ∧
      (Processor.mk .counting d'.pool f.returning.code).Runs ⟨0, .unit, [.unit], ⟨5, []⟩⟩
        (.returned .unit ⟨5, []⟩) ∧
      value .counting Context.selective.outside [([120], .unit)] .selection ⟨5, []⟩ =
        (.int 6, ⟨7, [.self [.unit], .builtin 14 [.unit, .int 5]]⟩) := by
  refine ⟨.marked {} (.marked {} (instr (.indexed .load 0))), {}, rfl, ?_, ?_⟩
  · exact .next rfl (.stop rfl)
  · rw [value_selection]
    rfl

end StackLisp
