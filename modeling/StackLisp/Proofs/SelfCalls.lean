import StackLisp.Proofs.CallCounts
import StackLisp.Proofs.Rewriting
import StackLisp.Proofs.Visibility

/-! Functions that call themselves. The code of a function has an instruction for each use of its
own name as a callee, and the uses in tail position, and only these, are calls that return. -/
namespace StackLisp

open Fragment (op instr)
open Lower

/-- A use of the own name of a function as a callee: a call with `argc` arguments, or an application
to `argc` arguments and a list. In tail position its value is that of the function. -/
structure SelfUse where
  spread : Bool
  argc : Nat
  tail : Bool
deriving DecidableEq, Repr

/-- The instruction for a use. -/
def SelfUse.instruction (u : SelfUse) : Instruction :=
  ⟨match u.spread, u.tail with
    | false, false => .callSelf
    | false, true => .tailCallSelf
    | true, false => .applySelf
    | true, true => .tailApplySelf, [u.argc]⟩

def Opcode.isTailSelf : Opcode → Bool
  | .tailCallSelf | .tailApplySelf => true
  | _ => false

def Opcode.isSelf : Opcode → Bool
  | .callSelf | .applySelf => true
  | o => o.isTailSelf

namespace Expr

/-- The callee is the own name of the function, if it has one, and none of the names that are bound
around it. -/
def isOwn (ctx : Context) (bound : List Bytes) : Expr → Bool
  | ident _ n => ctx.frame.name ≠ [] ∧ n = ctx.frame.name ∧ n ∉ bound
  | _ => false

mutual
/-- The uses of the own name of a function in a part of its body, in the order of the source. Nested
functions are left out, and so are the branches that a condition rules out whose value is known. The
names of `bound` are bound around the part. -/
def selfUses (ctx : Context) (bound : List Bytes) (tail : Bool) : Expr → List SelfUse
  | call _ fn args =>
    (if isOwn ctx bound fn then [⟨false, args.length, tail⟩] else [])
      ++ selfUses ctx bound false fn ++ selfUsesEach ctx bound args
  | apply _ fn args =>
    (if isOwn ctx bound fn then [⟨true, args.length - 1, tail⟩] else [])
      ++ selfUses ctx bound false fn ++ selfUsesEach ctx bound args
  | cond _ test yes no =>
    selfUses ctx bound false test
      ++ (if test.fold? (ctx.seeing bound) = some (.bool false) then []
        else selfUses ctx bound tail yes)
      ++ (if test.fold? (ctx.seeing bound) = some (.bool true) then []
        else selfUsesElse ctx bound tail no)
  | letIn _ bindings body =>
    selfUsesValues ctx bound bindings
      ++ selfUsesLast ctx (bindings.map Binding.name ++ bound) tail body
  | block _ body => selfUsesLast ctx bound tail body
  | and _ operands | or _ operands => selfUsesLast ctx bound tail operands
  | literal _ _ | ident _ _ | lambda _ _ _ _ | define _ _ _ | const _ _ _ => []
termination_by structural e => e

def selfUsesElse (ctx : Context) (bound : List Bytes) (tail : Bool) : Option Expr → List SelfUse
  | none => []
  | some e => selfUses ctx bound tail e
termination_by structural e => e

/-- Only the last of several expressions is in tail position. -/
def selfUsesLast (ctx : Context) (bound : List Bytes) (tail : Bool) : List Expr → List SelfUse
  | [] => []
  | [e] => selfUses ctx bound tail e
  | e :: es => selfUses ctx bound false e ++ selfUsesLast ctx bound tail es
termination_by structural es => es

def selfUsesEach (ctx : Context) (bound : List Bytes) : List Expr → List SelfUse
  | [] => []
  | e :: es => selfUses ctx bound false e ++ selfUsesEach ctx bound es
termination_by structural es => es

def selfUsesValues (ctx : Context) (bound : List Bytes) : List (Binding Expr) → List SelfUse
  | [] => []
  | ⟨_, _, e⟩ :: bs => selfUses ctx bound false e ++ selfUsesValues ctx bound bs
termination_by structural bs => bs
end

/-- The own name is not counted as a use by itself. -/
theorem selfUses_of_isOwn {ctx : Context} {bound : List Bytes} {tail : Bool} {e : Expr}
    (h : e.isOwn ctx bound = true) : e.selfUses ctx bound tail = [] := by
  cases e with
  | ident pos n => rw [selfUses]
  | _ => cases h

end Expr

/-! ### Comparing instructions with uses -/

/-- The instructions are those for the uses. In tail position, where `tail` allows it at all, they
come in the order of the source. Only a function with a name has uses. -/
structure SelfUse.Match (name : Bytes) (tail : Bool) (is : List Instruction)
    (us : List SelfUse) : Prop where
  perm : is.Perm (us.map SelfUse.instruction)
  order : is.filter (fun i => i.op.isTailSelf) =
    (us.filter fun u => u.tail).map SelfUse.instruction
  allowed : ∀ u ∈ us, u.tail = true → tail = true
  named : us ≠ [] → name ≠ []

namespace SelfUse.Match

variable {name : Bytes} {tail : Bool} {is js : List Instruction} {us vs : List SelfUse}

theorem nil (name : Bytes) (tail : Bool) : Match name tail [] [] where
  perm := .nil
  order := rfl
  allowed := List.forall_mem_nil _
  named h := absurd rfl h

theorem weaken (h : Match name false is us) (tail : Bool) : Match name tail is us where
  perm := h.perm
  order := h.order
  allowed u hu htail := absurd (h.allowed u hu htail) Bool.false_ne_true
  named := h.named

theorem append (h : Match name tail is us) (h' : Match name tail js vs) :
    Match name tail (is ++ js) (us ++ vs) where
  perm := by
    rw [List.map_append]
    exact h.perm.append h'.perm
  order := by rw [List.filter_append, List.filter_append, List.map_append, h.order, h'.order]
  allowed := List.forall_mem_append.2 ⟨h.allowed, h'.allowed⟩
  named hne := by
    by_cases hus : us = []
    · exact h'.named fun hvs => hne (by rw [hus, hvs, List.append_nil])
    · exact h.named hus

/-- A use stands in front of those in its arguments, and its instruction behind theirs. -/
theorem use (h : Match name false is us) (u : SelfUse) (hname : name ≠ [])
    (htail : u.tail = true → tail = true) :
    Match name tail (is ++ [u.instruction]) (u :: us) where
  perm := by
    rw [List.map_cons]
    exact List.perm_append_comm.trans (h.perm.cons u.instruction)
  order := by
    have hnone : us.filter (fun u => u.tail) = [] :=
      List.filter_eq_nil_iff.2 fun v hv hvtail => by cases h.allowed v hv hvtail
    have hown : u.instruction.op.isTailSelf = u.tail := by
      obtain ⟨spread, argc, tail⟩ := u
      cases spread <;> cases tail <;> rfl
    rw [List.filter_append, h.order, hnone, List.map_nil, List.nil_append, List.filter_cons, hown,
      List.filter_cons, hnone]
    cases u.tail <;> rfl
  allowed := List.forall_mem_cons.2 ⟨htail, (h.weaken tail).allowed⟩
  named _ := hname

end SelfUse.Match

namespace Fragment

/-- The calls of a piece of code by which a function calls itself. -/
def selfCalls (f : Fragment) : List Instruction := f.calls.filter fun i => i.op.isSelf

@[simp] theorem selfCalls_append (f g : Fragment) :
    (f ++ g).selfCalls = f.selfCalls ++ g.selfCalls := by
  rw [selfCalls, calls_append, List.filter_append]
  rfl

theorem selfCalls_eq {f g : Fragment} (h : f.calls = g.calls) : f.selfCalls = g.selfCalls := by
  rw [selfCalls, selfCalls, h]

theorem selfCalls_quiet {f : Fragment} (h : f.calls = []) : f.selfCalls = [] := by
  rw [selfCalls, h]
  rfl

end Fragment

theorem Lower.selfCalls_callBuiltin (b : Builtin) (argc : Nat) :
    (callBuiltin b argc).selfCalls = [] := by
  unfold callBuiltin
  split <;> rfl

/-! ### What is hidden where -/

/-- The names of `bound` are the locals of `ctx`, in which the function has the name that it has in
`own`. -/
structure Context.Mirrors (own : Context) (bound : List Bytes) (ctx : Context) : Prop where
  options : own.options = ctx.options
  env : own.env = ctx.env
  name : own.frame.name = ctx.frame.name
  bound : ∀ n, (ctx.frame.slot? n).isSome ↔ n ∈ bound

namespace Context.Mirrors

variable {own ctx : Context} {bound : List Bytes}

theorem refl (ctx : Context) : ctx.Mirrors (ctx.frame.locals.map Prod.fst) ctx where
  options := rfl
  env := rfl
  name := rfl
  bound n := by rw [Frame.slot?, isSome_lookup, decide_eq_true_iff]

theorem bind (h : own.Mirrors bound ctx) (slot : Nat) (names : List Bytes) :
    own.Mirrors (names ++ bound) (ctx.bind slot names) where
  options := h.options
  env := h.env
  name := h.name.trans (Frame.name_bind _ _ _).symm
  bound n := by rw [Context.bind, Frame.isSome_slot?_bind, h.bound, List.mem_append]

theorem agreeOn (h : own.Mirrors bound ctx) (n : Bytes) : (own.seeing bound).AgreeOn ctx n := by
  have hslot : ((own.seeing bound).frame.slot? n).isSome = (ctx.frame.slot? n).isSome := by
    rw [Bool.eq_iff_iff, h.bound, Frame.slot?, isSome_lookup, decide_eq_true_iff]
    simp [Context.seeing]
  unfold AgreeOn resolve
  cases hseen : (own.seeing bound).frame.slot? n with
  | some s =>
    obtain ⟨t, ht⟩ := Option.isSome_iff_exists.1 (hslot.symm.trans (by rw [hseen]; rfl))
    rw [ht]
    rfl
  | none =>
    have hnone : ctx.frame.slot? n = none := by
      rw [hseen, eq_comm, Option.isSome_none, Option.isSome_eq_false_iff] at hslot
      exact Option.isNone_iff_eq_none.1 hslot
    have hname : (own.seeing bound).frame.name = ctx.frame.name := h.name
    have henv : (own.seeing bound).env = ctx.env := h.env
    have hoptions : (own.seeing bound).options = ctx.options := h.options
    rw [hnone, hname, henv, hoptions]

theorem fold? (h : own.Mirrors bound ctx) (e : Expr) : e.fold? (own.seeing bound) = e.fold? ctx :=
  Expr.fold?_congr fun n _ => h.agreeOn n

/-- What is compiled as a call of the function itself is a use of its own name. -/
theorem isOwn_of_self (h : own.Mirrors bound ctx) {fn : Expr} {d d' : Draft}
    (hc : Yields (callee ctx fn) d .self d') :
    fn.isOwn own bound = true ∧ own.frame.name ≠ [] := by
  obtain ⟨place, rfl, hne, hslot⟩ := hc.callee_self
  have hbound : ctx.frame.name ∉ bound := by
    rw [← h.bound, hslot]
    exact Bool.false_ne_true
  rw [Expr.isOwn, decide_eq_true_iff, h.name]
  exact ⟨⟨hne, rfl, hbound⟩, hne⟩

theorem isOwn_of_ne_self (h : own.Mirrors bound ctx) {fn : Expr} {c : Callee} {d d' : Draft}
    (hc : Yields (callee ctx fn) d c d') (hne : c ≠ .self) : fn.isOwn own bound = false := by
  obtain ⟨-, ⟨place, name, rfl, -, rfl⟩ | ⟨hident, -⟩⟩ := yields_callee hc
  · rw [Expr.isOwn, decide_eq_false_iff_not, h.name]
    rintro ⟨hname, rfl, hbound⟩
    refine hne ?_
    have hslot : ctx.frame.slot? ctx.frame.name = none := by
      rw [← h.bound] at hbound
      exact Option.not_isSome_iff_eq_none.1 hbound
    rw [Context.lookup_eq_self.2 ⟨hslot, hname, rfl⟩]
    rfl
  · cases fn <;> first | rfl | exact absurd rfl (hident _ _)

end Context.Mirrors

namespace Expr

variable {own ctx : Context} {bound : List Bytes}

theorem fold?_of_foldAll? {es : List Expr} {vs : List Value} (h : foldAll? ctx es = some vs) :
    ∀ e ∈ es, ∃ v, e.fold? ctx = some v := by
  induction es generalizing vs with
  | nil => exact List.forall_mem_nil _
  | cons e es ih =>
    rw [foldAll?] at h
    cases he : e.fold? ctx with
    | none =>
      rw [he] at h
      cases h
    | some v =>
      rw [he] at h
      obtain ⟨ws, hws, -⟩ := Option.map_eq_some_iff.1 h
      exact List.forall_mem_cons.2 ⟨⟨v, he⟩, ih hws⟩

theorem selfUsesEach_eq_nil {es : List Expr} (h : ∀ e ∈ es, e.selfUses own bound false = []) :
    selfUsesEach own bound es = [] := by
  induction es with
  | nil => rw [selfUsesEach]
  | cons e es ih =>
    obtain ⟨he, hes⟩ := List.forall_mem_cons.1 h
    rw [selfUsesEach, he, ih hes]
    rfl

/-- The own name of a function, where nothing hides it, is the function itself. -/
theorem resolve_of_isOwn {pos : Position} {n : Bytes}
    (h : (ident pos n).isOwn own bound = true) : (own.seeing bound).resolve n = .self := by
  rw [isOwn, decide_eq_true_iff] at h
  obtain ⟨hname, rfl, hbound⟩ := h
  have hslot : (own.seeing bound).frame.slot? own.frame.name = none := by
    rw [← Option.isNone_iff_eq_none, ← Option.not_isSome, Frame.slot?, isSome_lookup,
      Bool.not_eq_true', decide_eq_false_iff_not]
    simpa [Context.seeing] using hbound
  unfold Context.resolve
  rw [hslot]
  exact if_pos ⟨hname, rfl⟩

theorem isOwn_of_builtin {n : Bytes} {pos : Position} {b : Builtin}
    (h : (own.seeing bound).resolve n = .builtin b) : (ident pos n).isOwn own bound = false := by
  by_contra hown
  rw [Bool.not_eq_false] at hown
  rw [resolve_of_isOwn hown] at h
  cases h

theorem selfUses_of_isNegation {fn : Expr} {argc : Nat}
    (h : isNegation (own.seeing bound) fn argc = true) :
    fn.isOwn own bound = false ∧ fn.selfUses own bound false = [] := by
  unfold isNegation at h
  split at h
  · split at h
    · next hb =>
      rw [selfUses]
      exact ⟨isOwn_of_builtin hb, rfl⟩
    · cases h
  · cases h

/-- What is known at compile time has no uses, but in branches that are ruled out. -/
theorem selfUses_of_fold? {e : Expr} {v : Value} (h : e.fold? (own.seeing bound) = some v)
    (tail : Bool) : e.selfUses own bound tail = [] := by
  induction e using Expr.induction generalizing v tail with
  | literal | ident => rw [selfUses]
  | call pos fn args _ ihargs =>
    cases fn with
    | ident place n =>
      rw [fold?] at h
      split at h
      · next b hb =>
        have hargs : ∀ e ∈ args, e.selfUses own bound false = [] := by
          split at h
          · split at h
            · next vs hp hvs =>
              intro e he
              obtain ⟨w, hw⟩ := fold?_of_foldAll? hvs e he
              exact ihargs e he hw false
            · cases h
          · cases h
        rw [selfUses, isOwn_of_builtin hb, selfUses, selfUsesEach_eq_nil hargs]
        rfl
      · cases h
    | _ => cases h
  | cond pos test yes no ihtest ihyes ihno =>
    -- The value of the condition rules out one branch, and the other is known as well.
    cases htest : test.fold? (own.seeing bound) with
    | none => cases no <;> rw [fold?, htest] at h <;> cases h
    | some w =>
      rw [selfUses, ihtest htest, htest]
      cases w with
      | bool b =>
        cases b with
        | true =>
          have hyes : yes.fold? (own.seeing bound) = some v := by
            cases no <;> rw [fold?, htest] at h <;> exact h
          rw [ihyes hyes]
          rfl
        | false =>
          cases no with
          | none =>
            rw [selfUsesElse]
            rfl
          | some no =>
            rw [fold?, htest] at h
            rw [selfUsesElse, ihno no rfl h]
            rfl
      | _ => cases no <;> rw [fold?, htest] at h <;> cases h
  | _ => cases h

end Expr

/-! ### Calls that are cut short -/

/-- What a shortcut leaves out is an argument whose value is known, if it is not the identity. -/
theorem Lower.shortcut?_known {b : Builtin} {known : List (Option Value)} {cut : Shortcut}
    (h : shortcut? b known = some cut) :
    (b.primitive? = some .identity ∧ cut.index = 0) ∨
      ∃ x y, known = [x, y] ∧ (cut.index = 0 ∧ y.isSome ∨ cut.index = 1 ∧ x.isSome) := by
  have hpair {x y : Option Int} (hints : known.map (fun v => v.bind Value.toInt?) = [x, y])
      (hcut : cut.index = 0 ∧ y.isSome ∨ cut.index = 1 ∧ x.isSome) :
      ∃ x y, known = [x, y] ∧ (cut.index = 0 ∧ y.isSome ∨ cut.index = 1 ∧ x.isSome) := by
    obtain ⟨v, w, rfl⟩ : ∃ v w, known = [v, w] :=
      List.length_eq_two.1 (by simpa using congrArg List.length hints)
    obtain ⟨rfl, hw⟩ := List.cons.inj hints
    obtain ⟨rfl, -⟩ := List.cons.inj hw
    refine ⟨v, w, rfl, hcut.imp (fun h => ⟨h.1, ?_⟩) (fun h => ⟨h.1, ?_⟩)⟩
    · exact Option.isSome_of_isSome_bind h.2
    · exact Option.isSome_of_isSome_bind h.2
  unfold shortcut? at h
  dsimp only at h
  split at h
  · next hp =>
    cases h
    exact .inl ⟨hp, rfl⟩
  · next hints =>
    refine .inr (hpair hints ?_)
    unfold sumShortcut at h
    grind [Shortcut.index]
  · next hints =>
    refine .inr (hpair hints ?_)
    unfold differenceShortcut at h
    grind [Shortcut.index]
  · next hints =>
    refine .inr (hpair hints ?_)
    unfold floorDivShortcut at h
    grind [Shortcut.index]
  · cases h

/-- The uses of the own name in a part. Nested functions are left out. -/
def Part.selfUses (own : Context) (bound : List Bytes) (tail : Bool) : Part → List SelfUse
  | .expr e | .bare e => e.selfUses own bound tail
  | .otherwise no => Expr.selfUsesElse own bound tail no
  | .sequence es | .operands _ es => Expr.selfUsesLast own bound tail es
  | .arguments es | .spread es => Expr.selfUsesEach own bound es
  | .operandAt i es => es[i]?.elim [] fun e => e.selfUses own bound tail
  | .values bs => Expr.selfUsesValues own bound bs
  | .function .. => []

namespace Expr

variable {own : Context} {bound : List Bytes} {tail : Bool}

theorem selfUses_call {pos : Position} {fn : Expr} {args : List Expr}
    (h : fn.isOwn own bound = false) :
    (call pos fn args).selfUses own bound tail =
      fn.selfUses own bound false ++ selfUsesEach own bound args := by
  rw [selfUses, h]
  rfl

theorem selfUses_call_own {pos : Position} {fn : Expr} {args : List Expr}
    (h : fn.isOwn own bound = true) :
    (call pos fn args).selfUses own bound tail =
      ⟨false, args.length, tail⟩ :: selfUsesEach own bound args := by
  rw [selfUses, if_pos h, selfUses_of_isOwn h]
  rfl

theorem selfUses_apply {pos : Position} {fn : Expr} {args : List Expr}
    (h : fn.isOwn own bound = false) :
    (apply pos fn args).selfUses own bound tail =
      fn.selfUses own bound false ++ selfUsesEach own bound args := by
  rw [selfUses, h]
  rfl

theorem selfUses_apply_own {pos : Position} {fn : Expr} {args : List Expr}
    (h : fn.isOwn own bound = true) :
    (apply pos fn args).selfUses own bound tail =
      ⟨true, args.length - 1, tail⟩ :: selfUsesEach own bound args := by
  rw [selfUses, if_pos h, selfUses_of_isOwn h]
  rfl

theorem selfUsesLast_cons {e : Expr} {es : List Expr} (h : es ≠ []) :
    selfUsesLast own bound tail (e :: es) =
      e.selfUses own bound false ++ selfUsesLast own bound tail es := by
  rw [selfUsesLast]
  exact h

/-- Of the arguments of a call that is cut short, only the one that is computed has uses. -/
theorem selfUsesEach_of_shortcut {b : Builtin} {args : List Expr} {cut : Shortcut}
    (hone : b.primitive? = some .identity → args.length = 1)
    (hcut : shortcut? b (args.map fun e => e.fold? (own.seeing bound)) = some cut) :
    selfUsesEach own bound args = (Part.operandAt cut.index args).selfUses own bound false := by
  rcases shortcut?_known hcut with ⟨hidentity, hindex⟩ | ⟨x, y, hknown, hindex⟩
  · obtain ⟨e, rfl⟩ := List.length_eq_one_iff.1 (hone hidentity)
    rw [hindex, selfUsesEach, selfUsesEach, List.append_nil]
    rfl
  · obtain ⟨e, rest, rfl, rfl, hrest⟩ := List.map_eq_cons_iff.1 hknown
    obtain ⟨e', rest, rfl, rfl, hnil⟩ := List.map_eq_cons_iff.1 hrest
    rw [List.map_eq_nil_iff] at hnil
    subst hnil
    rw [selfUsesEach, selfUsesEach, selfUsesEach, List.append_nil]
    rcases hindex with ⟨hindex, hsome⟩ | ⟨hindex, hsome⟩
    · obtain ⟨v, hv⟩ := Option.isSome_iff_exists.1 hsome
      rw [hindex, selfUses_of_fold? hv, List.append_nil]
      rfl
    · obtain ⟨v, hv⟩ := Option.isSome_iff_exists.1 hsome
      rw [hindex, selfUses_of_fold? hv]
      rfl

end Expr

namespace Lower

variable {own ctx : Context} {bound : List Bytes}

/-- A callee that is known by name, and is not the function itself, has no uses. -/
theorem Yields.selfUses_known {tail : Bool} {pos : Position} {fn : Expr} {args : List Expr}
    {c : Callee} {d d' : Draft} (h : Yields (callee ctx fn) d c d') (hm : own.Mirrors bound ctx)
    (hself : c ≠ .self) (hcomputed : c ≠ .computed) :
    (Expr.call pos fn args).selfUses own bound tail = Expr.selfUsesEach own bound args := by
  rw [Expr.selfUses_call (hm.isOwn_of_ne_self h hself)]
  obtain ⟨-, ⟨place, name, rfl, -, -⟩ | ⟨-, rfl⟩⟩ := yields_callee h
  · rw [Expr.selfUses]
    rfl
  · exact absurd rfl hcomputed

/-- A call that is cut short has the uses of the argument that is computed. -/
theorem Yields.selfUses_cut {tail : Bool} {pos : Position} {fn : Expr} {args : List Expr}
    {b : Builtin} {cut : Shortcut} {d d' : Draft} (h : Yields (callee ctx fn) d (.builtin b) d')
    (hm : own.Mirrors bound ctx) (hunary : own.options.builtins.IdentityUnary)
    (haccepts : b.arity.accepts args.length = true)
    (hcut : shortcut? b (args.map fun e => e.fold? ctx) = some cut) :
    (Expr.call pos fn args).selfUses own bound tail =
      (Part.operandAt cut.index args).selfUses own bound false := by
  have hone := h.length_of_identity (hm.options ▸ hunary) haccepts
  have hfold : (fun e : Expr => e.fold? (own.seeing bound)) = fun e => e.fold? ctx :=
    funext hm.fold?
  rw [← hfold] at hcut
  rw [h.selfUses_known hm (by intro hb; cases hb) (by intro hb; cases hb)]
  exact Expr.selfUsesEach_of_shortcut hone hcut

theorem selfCalls_callSelf (argc : Nat) (use : Use) :
    (op (if use = .tail then .tailCallSelf else .callSelf) [argc]).selfCalls =
      [(⟨false, argc, decide (use = .tail)⟩ : SelfUse).instruction] := by
  cases use <;> rfl

theorem selfCalls_applySelf (argc : Nat) (use : Use) :
    (op (if use = .tail then .tailApplySelf else .applySelf) [argc]).selfCalls =
      [(⟨true, argc, decide (use = .tail)⟩ : SelfUse).instruction] := by
  cases use <;> rfl

theorem selfCalls_callConst (i argc : Nat) :
    (instr (.indexed .callConst i [argc])).selfCalls = [] := by
  unfold Instruction.indexed
  split <;> rfl

end Lower

section
open SelfUse (Match)

variable {own : Context}

theorem SelfUse.Match.code {name : Bytes} {tail : Bool} {f g : Fragment} {us vs : List SelfUse}
    (h : Match name tail f.selfCalls us) (h' : Match name tail g.selfCalls vs) :
    Match name tail (f ++ g).selfCalls (us ++ vs) := by
  rw [Fragment.selfCalls_append]
  exact h.append h'

/-- An argument is not in tail position. -/
theorem SelfUse.Match.argument {name : Bytes} {f g : Fragment} {us vs : List SelfUse}
    (h : Match name false f.selfCalls us) (hf : f.Ends) (h' : Match name false g.selfCalls vs) :
    Match name false (f.pushed ++ g).selfCalls (us ++ vs) := by
  rw [← Fragment.selfCalls_eq (Fragment.calls_pushed hf)] at h
  exact h.code h'

theorem SelfUse.Match.append_quiet {name : Bytes} {tail : Bool} {f g : Fragment}
    {us : List SelfUse} (h : Match name tail f.selfCalls us) (hg : g.selfCalls = []) :
    Match name tail (f ++ g).selfCalls us := by
  rw [Fragment.selfCalls_append, hg, List.append_nil]
  exact h

theorem SelfUse.Match.branch {name : Bytes} {tail taken : Bool} {operands : List Nat} {f : Fragment}
    {us : List SelfUse} (h : Match name tail f.selfCalls us) :
    Match name tail (f ++ op (branchOn taken) operands).selfCalls us :=
  h.append_quiet (Fragment.selfCalls_quiet (quiet_branch taken operands).calls_eq)

theorem Use.decide_last (use : Use) : decide (use.last = .tail) = decide (use = .tail) := by
  cases use <;> rfl

theorem Emits.selfUses {ctx : Context} {bound : List Bytes} {use : Use} {base depth : Nat}
    {part : Part} {d d' : Draft} {f : Fragment} (h : Emits ctx use base depth part d f d')
    (hm : own.Mirrors bound ctx) (hunary : own.options.builtins.IdentityUnary) :
    Match own.frame.name (decide (use = .tail)) f.selfCalls
      (part.selfUses own bound (decide (use = .tail))) := by
  -- The function stays the same throughout; only the body of a `let` has more names bound.
  induction h generalizing bound with
  | literal hy =>
    rw [Part.selfUses, Expr.selfUses, Fragment.selfCalls_quiet hy.load_quiet.calls_eq]
    exact .nil _ _
  | ident hy =>
    rw [Part.selfUses, Expr.selfUses, Fragment.selfCalls_quiet hy.loadName_quiet.calls_eq]
    exact .nil _ _
  | marked _ _ ih | operandsOne _ ih | sequenceOne _ ih => exact ih hm
  | otherwiseSome _ ih =>
    rw [Part.selfUses, Expr.selfUsesElse]
    exact ih hm
  | negation hneg _ ih =>
    obtain ⟨e, rfl⟩ := List.length_eq_one_iff.1 (isNegation_argc hneg)
    rw [← isNegation_congr fun n _ => hm.agreeOn n] at hneg
    obtain ⟨hown, hnone⟩ := Expr.selfUses_of_isNegation hneg
    rw [Part.selfUses, Expr.selfUses_call hown, hnone, Expr.selfUsesEach, Expr.selfUsesEach,
      List.append_nil]
    exact ih hm
  | @callSelf _ use _ _ _ _ args _ _ _ _ hc _ _ ih =>
    obtain ⟨hown, hname⟩ := hm.isOwn_of_self hc
    rw [Part.selfUses, Expr.selfUses_call_own hown, Fragment.selfCalls_append, selfCalls_callSelf]
    exact (ih hm).use _ hname id
  | @applySelf _ use _ _ _ _ args _ _ _ _ _ hc _ _ ih =>
    obtain ⟨hown, hname⟩ := hm.isOwn_of_self hc
    rw [Part.selfUses, Expr.selfUses_apply_own hown, Fragment.selfCalls_append, selfCalls_applySelf]
    exact (ih hm).use _ hname id
  | callNamed _ hc _ _ _ ih =>
    rw [Part.selfUses, hc.selfUses_known hm (by intro h; cases h) (by intro h; cases h)]
    exact ((ih hm).weaken _).append_quiet (selfCalls_callConst _ _)
  | callFolded _ _ _ hfold hy =>
    rw [Part.selfUses, Expr.selfUses_of_fold? ((hm.fold? _).trans hfold),
      Fragment.selfCalls_quiet hy.load_quiet.calls_eq]
    exact .nil _ _
  | callOperand _ hc haccepts _ hcut _ ih =>
    rw [Part.selfUses, hc.selfUses_cut hm hunary haccepts hcut]
    exact (ih hm).weaken _
  | callUnary _ hc haccepts _ hcut hf ih =>
    rw [Part.selfUses, hc.selfUses_cut hm hunary haccepts hcut, Fragment.selfCalls_append,
      selfCalls_callBuiltin, List.append_nil,
      Fragment.selfCalls_eq (Fragment.calls_pushed (hf.ends rfl))]
    exact (ih hm).weaken _
  | callStep _ hc haccepts _ hcut hf ih =>
    rw [Part.selfUses, hc.selfUses_cut hm hunary haccepts hcut]
    refine ((ih hm).weaken _).append_quiet ?_
    rcases shortcut?_step hcut with rfl | rfl <;> rfl
  | callPlain _ hc _ _ _ _ ih =>
    rw [Part.selfUses, hc.selfUses_known hm (by intro h; cases h) (by intro h; cases h)]
    exact ((ih hm).weaken _).append_quiet (selfCalls_callBuiltin _ _)
  | callComputed _ hc hf _ ih₁ ih₂ =>
    rw [Part.selfUses, Expr.selfUses_call (hm.isOwn_of_ne_self hc (by decide))]
    exact (((ih₁ hm).argument (hf.ends rfl) (ih₂ hm)).weaken _).append_quiet rfl
  | applyComputed _ _ hc hself hf _ ih₁ ih₂ =>
    rw [Part.selfUses, Expr.selfUses_apply (hm.isOwn_of_ne_self hc hself)]
    exact (((ih₁ hm).argument (hf.ends rfl) (ih₂ hm)).weaken _).append_quiet rfl
  | condTrue htest _ ih =>
    have htest := (hm.fold? _).trans htest
    rw [Part.selfUses, Expr.selfUses, Expr.selfUses_of_fold? htest, htest, if_neg (by decide),
      if_pos rfl, List.append_nil, List.nil_append, ← Use.decide_last]
    exact ih hm
  | condFalse htest _ ih =>
    have htest := (hm.fold? _).trans htest
    rw [Part.selfUses, Expr.selfUses, Expr.selfUses_of_fold? htest, htest, if_pos rfl,
      if_neg (by decide), List.append_nil, List.nil_append, ← Use.decide_last]
    exact ih hm
  | condTail htest _ _ _ _ _ ih₁ ih₂ ih₃ =>
    have htest b := (hm.fold? _).trans_ne (htest b)
    rw [Part.selfUses, Expr.selfUses, if_neg (htest false), if_neg (htest true)]
    have hyes := ih₂ hm
    rw [← Fragment.selfCalls_eq (Fragment.calls_returning _)] at hyes
    exact (((ih₁ hm).weaken true).branch.code hyes).code (ih₃ hm)
  | condValue htail htest _ _ _ _ _ _ ih₁ ih₂ ih₃ =>
    have htest b := (hm.fold? _).trans_ne (htest b)
    rw [Part.selfUses, Expr.selfUses, if_neg (htest false), if_neg (htest true),
      decide_eq_false htail, Fragment.selfCalls_eq (Fragment.calls_landed _)]
    exact (((ih₁ hm).branch.code (ih₂ hm)).append_quiet rfl).code (ih₃ hm)
  | block _ ih | and _ _ ih | or _ _ ih =>
    rw [Part.selfUses, Expr.selfUses, ← Use.decide_last]
    exact ih hm
  | letTail _ _ ih₁ ih₂ =>
    rw [Part.selfUses, Expr.selfUses]
    exact ((ih₁ hm).weaken _).code (ih₂ (hm.bind _ _))
  | letValue htail _ _ ih₁ ih₂ =>
    rw [Part.selfUses, Expr.selfUses, decide_eq_false htail,
      Fragment.selfCalls_eq (Fragment.calls_skipping _ _)]
    exact (ih₁ hm).code (ih₂ (hm.bind _ _))
  | andEmpty | orEmpty =>
    rw [Part.selfUses, Expr.selfUses, Expr.selfUsesLast]
    exact .nil _ _
  | otherwiseNone =>
    rw [Part.selfUses, Expr.selfUsesElse]
    exact .nil _ _
  | sequenceNil =>
    rw [Part.selfUses, Expr.selfUsesLast]
    exact .nil _ _
  | argumentsNil =>
    rw [Part.selfUses, Expr.selfUsesEach]
    exact .nil _ _
  | valuesNil =>
    rw [Part.selfUses, Expr.selfUsesValues]
    exact .nil _ _
  | lambda _ ih =>
    rw [Part.selfUses, Expr.selfUses]
    exact (ih hm).weaken _
  | function =>
    rw [Fragment.selfCalls_quiet (quiet_loadFunction _ _).calls_eq]
    exact .nil _ _
  | sequenceCons hne _ _ ih₁ ih₂ =>
    rw [Part.selfUses, Expr.selfUsesLast_cons hne]
    exact ((ih₁ hm).weaken _).code (ih₂ hm)
  | argumentsCons hf _ ih₁ ih₂ | spreadCons _ hf _ ih₁ ih₂ =>
    rw [Part.selfUses, Expr.selfUsesEach]
    exact (ih₁ hm).argument (hf.ends rfl) (ih₂ hm)
  | valuesCons _ hf _ ih₁ ih₂ =>
    rw [Part.selfUses, Expr.selfUsesValues]
    exact (ih₁ hm).argument (hf.ends rfl) (ih₂ hm)
  | spreadOne _ ih =>
    rw [Part.selfUses, Expr.selfUsesEach, Expr.selfUsesEach, List.append_nil]
    exact ih hm
  | operandsCons hne _ _ _ _ ih₁ ih₂ =>
    rw [Part.selfUses, Expr.selfUsesLast_cons hne, Fragment.selfCalls_eq (Fragment.calls_landed _)]
    exact ((ih₁ hm).weaken _).branch.code (ih₂ hm)
  | operandAt hi _ ih =>
    rw [Part.selfUses, hi]
    exact ih hm
  | operandAtNone hi =>
    rw [Part.selfUses, hi]
    exact .nil _ _

end

/-! ### Whole functions -/

/-- The instructions by which a function calls itself. -/
def Function.selfCalls (g : Function) : List Instruction :=
  g.instructions.filter fun i => i.op.isSelf

theorem Function.Built.selfCalls_eq {earlier : List Function} {g : Function} {f : Fragment}
    (h : g.Built earlier f.returning.instructions) : g.selfCalls = f.selfCalls := by
  have hcalls (o : Opcode) : o.isSelf = (o.isSelf && o.isCall) := by
    cases o <;> rfl
  rw [Function.selfCalls, h.instructions_eq, Fragment.selfCalls, ← Fragment.calls_returning,
    Fragment.calls, List.filter_filter]
  exact List.filter_congr fun i _ => hcalls i.op

/-- A function without a name does not call itself. -/
theorem Emits.selfCalls_of_nameless {ctx : Context} {use : Use} {base depth : Nat} {part : Part}
    {d d' : Draft} {f : Fragment} (h : Emits ctx use base depth part d f d')
    (hname : ctx.frame.name = []) (hunary : ctx.options.builtins.IdentityUnary) :
    f.selfCalls = [] := by
  have hmatch := h.selfUses (.refl ctx) hunary
  have hnone := not_imp_not.1 hmatch.named hname
  have hperm := hmatch.perm
  rw [hnone] at hperm
  exact hperm.eq_nil

/-- What is nested in a definition has no name. -/
theorem Emits.nameless {ctx : Context} {use : Use} {base depth : Nat} {part : Part} {d d' : Draft}
    {f : Fragment} (h : Emits ctx use base depth part d f d')
    (hunary : ctx.options.builtins.IdentityUnary) (hpart : part.All Expr.Spelled)
    (hd : d.functions = []) : ∀ g ∈ d'.functions, g.name = [] ∧ g.selfCalls = [] := by
  refine h.forall_functions (I := fun c => c.options = ctx.options)
    (fun _ _ hc => hc) (fun _ _ _ hc => hc) (fun h hdecl hx => h.child hdecl hx) ?_ rfl hpart ?_
  · intro c pos name params body captured functions b inner hc hspelled hslots hb
    cases hspelled with
    | lambda =>
      refine ⟨rfl, ?_⟩
      rw [(hb.built hslots).selfCalls_eq]
      refine hb.selfCalls_of_nameless (Context.name_enter c [] params _) ?_
      rw [← hc] at hunary
      exact hunary
  · rw [hd]
    exact List.forall_mem_nil _

/-- The uses of its name in a function that is defined in the environment `env`. -/
def Expr.ownUses (options : CompileOptions) (env : Environment) : Expr → List SelfUse
  | .define _ name (.lambda _ _ params body) =>
    selfUsesLast { options, env, frame := { name } } params true body
  | _ => []

/-- The instructions by which the function calls itself are those for the uses. The uses in tail
position, and no others, have calls that return, and these come in the order of the source. -/
structure Function.CallsItself (uses : List SelfUse) (g : Function) : Prop where
  all : g.selfCalls.Perm (uses.map SelfUse.instruction)
  tail : g.selfCalls.filter (fun i => i.op.isTailSelf) =
    (uses.filter fun u => u.tail).map SelfUse.instruction

theorem EmitsForm.selfCalls_eq_nil {ctx : Context} {e : Expr} {f : Fragment} {d : Draft}
    (h : EmitsForm ctx e f d) (hname : ctx.frame.name = [])
    (hunary : ctx.options.builtins.IdentityUnary) : f.selfCalls = [] := by
  have publish {f : Fragment} {i : Nat} (hf : f.selfCalls = []) :
      (f ++ op .setDef [i]).selfCalls = [] := by
    rw [Fragment.selfCalls_append, hf]
    rfl
  cases h with
  | expression _ hf => exact hf.selfCalls_of_nameless hname hunary
  | define _ _ hf | const _ _ hf => exact publish (hf.selfCalls_of_nameless hname hunary)
  | defineFunction _ hf =>
    refine publish ?_
    rw [Fragment.selfCalls_eq (Fragment.calls_marked _ _)]
    exact hf.selfCalls_of_nameless hname hunary

theorem Emits.callsItself {ctx : Context} {place : Position} {name : Bytes}
    {params free : List Bytes} {body : List Expr} {d d' : Draft} {f : Fragment}
    (h : Emits ctx .value 0 0 (.function place name params free body) d f d')
    (hframe : ctx.frame = {}) (hunary : ctx.options.builtins.IdentityUnary)
    (hbody : ∀ e ∈ body, e.Spelled) (hd : d.functions = []) :
    ∃ (nested : List Function) (g : Function), d'.functions = nested ++ [g] ∧
      (∀ g ∈ nested, g.name = [] ∧ g.selfCalls = []) ∧ g.name = name ∧
      g.params = params.length ∧ g.CallsItself (Expr.selfUsesLast
        { options := ctx.options, env := ctx.env, frame := { name } } params true body) := by
  cases h with
  | function _ hcaptured _ hslots _ hb _ =>
    rw [capturedBy_eq_nil hframe] at hcaptured
    subst hcaptured
    -- Nothing is captured, so that the parameters are all that is bound around the body.
    have hm : ({ options := ctx.options, env := ctx.env, frame := { name } } : Context).Mirrors
        params (ctx.enter name params []) := by
      refine ⟨rfl, rfl, (Context.name_enter ctx name params []).symm, fun n => ?_⟩
      rw [Context.enter, Frame.isSome_slot?_ofFunction]
      simp
    have hmatch := hb.selfUses hm hunary
    refine ⟨_, _, rfl, hb.nameless hunary hbody hd, rfl, rfl, ?_, ?_⟩
    · rw [(hb.built hslots).selfCalls_eq]
      exact hmatch.perm
    · rw [(hb.built hslots).selfCalls_eq]
      exact hmatch.order

/-- Only the function that a form defines has a name, and it calls itself where its body says. -/
theorem EmitsForm.callsItself {ctx : Context} {e : Expr} {f : Fragment} {d : Draft}
    (h : EmitsForm ctx e f d) (hframe : ctx.frame = {})
    (hunary : ctx.options.builtins.IdentityUnary) (hspelled : e.Spelled) :
    (∀ g ∈ d.functions, (g.name = [] ∧ g.selfCalls = []) ∨
      ∃ pos place own params body, e = .define pos g.name (.lambda place own params body) ∧
        g.params = params.length ∧ g.CallsItself (e.ownUses ctx.options ctx.env)) ∧
    ∀ pos name place own params body, e = .define pos name (.lambda place own params body) →
      ∃ g ∈ d.functions, g.name = name ∧ g.params = params.length ∧
        g.CallsItself (e.ownUses ctx.options ctx.env) := by
  cases h with
  | expression hdecl hf =>
    have hpart := List.forall_mem_singleton.2 hspelled
    refine ⟨fun g hg => .inl (hf.nameless hunary hpart rfl g hg), ?_⟩
    rintro pos name place own params body rfl
    cases hdecl
  | define hvalue hi hf =>
    have hpart := List.forall_mem_singleton.2 (hspelled.definedValue hvalue)
    refine ⟨fun g hg => .inl (hf.nameless hunary hpart hi.interned.2.1 g hg), ?_⟩
    intro pos name place own params body heq
    cases heq
    exact absurd rfl (hvalue place own params body)
  | defineFunction hi hf =>
    obtain ⟨nested, g, heq, hnested, rfl, hg⟩ :=
      hf.callsItself hframe hunary hspelled.definedBody hi.interned.2.1
    rw [heq]
    refine ⟨List.forall_mem_append.2 ⟨fun g hg => .inl (hnested g hg), ?_⟩, ?_⟩
    · exact List.forall_mem_singleton.2 (.inr ⟨_, _, _, _, _, rfl, hg⟩)
    · intro pos name place own params body heq
      cases heq
      exact ⟨g, List.mem_append_right _ (.head _), rfl, hg⟩
  | const _ hi hf =>
    refine ⟨fun g hg => .inl (hf.nameless hunary ?_ hi.interned.2.1 g hg), ?_⟩
    · exact List.forall_mem_singleton.2 .literal
    · intro pos name place own params body heq
      cases heq

/-- In every image of a program that is read from a text, a function without a name does not call
itself, and one with a name is the function of a definition of that name and calls itself where its
body does. All uses of the name outside nested functions count, but those in branches that are ruled
out. The identity must take one argument, since its code is that of its first argument. -/
theorem Compilation.compile_callsItself {reading : ReadOptions} {source : Bytes}
    {options : CompileOptions} {env : Environment} {c : Compilation}
    (hunary : options.builtins.IdentityUnary)
    (h : compile options env (Program.read reading source).forms = .ok c) (k : Nat) (img : Image)
    (himg : c.images[k]? = some img) :
    ∃ e c₀, (Program.read reading source).forms[k]? = some e ∧
      compile options env ((Program.read reading source).forms.take k) = .ok c₀ ∧
      (∀ g ∈ img.functions, (g.name = [] ∧ g.selfCalls = []) ∨
        ∃ pos place own params body, e = .define pos g.name (.lambda place own params body) ∧
          g.params = params.length ∧ g.CallsItself (e.ownUses options c₀.env)) ∧
      ∀ pos name place own params body, e = .define pos name (.lambda place own params body) →
        ∃ g ∈ img.functions, g.name = name ∧ g.params = params.length ∧
          g.CallsItself (e.ownUses options c₀.env) := by
  obtain ⟨e, c₀, env₁, he, hfront, hone, -⟩ := compile_in_force h himg
  obtain ⟨-, ctx, hcompiles, henv, -⟩ := compiles_alone hone
  have hspelled : e.Spelled := Program.read_spelled reading source e (List.mem_of_getElem? he)
  have hframe := hcompiles.frame
  obtain rfl := hcompiles.options
  obtain ⟨f, d, hf, rfl⟩ := hcompiles.emits
  have hentry : (entry ctx f d).selfCalls = [] := by
    rw [(hf.built hframe).selfCalls_eq]
    exact hf.selfCalls_eq_nil (by rw [hframe]) hunary
  obtain ⟨hall, hdefined⟩ := hf.callsItself hframe hunary hspelled
  rw [henv] at hall hdefined
  refine ⟨e, c₀, he, hfront, ?_, fun pos name place own params body heq => ?_⟩
  · exact List.forall_mem_append.2 ⟨hall, List.forall_mem_singleton.2 (.inl ⟨rfl, hentry⟩)⟩
  · obtain ⟨g, hg, hcalls⟩ := hdefined pos name place own params body heq
    exact ⟨g, List.mem_append_left _ hg, hcalls⟩

/-- A function that calls itself under the identity, in a branch that is ruled out, as an operand,
in a function inside it, through another name, and in tail position, and that calls a local of its
own name. -/
def Program.recursive : Bytes :=
  Text.lit "(define f (lambda (n) (if (= n 0) (id (f 1)) (if (= 1 2) (f 2) (and (f 3)
    (lambda () (f 4)) (let ((g f)) (g 5)) (let ((f n)) (f 6)) (apply f (list n)))))))"

theorem Compilation.recursive_callsItself :
    ∃ c, compile {} {} (Program.read {} Program.recursive).forms = .ok c ∧
      c.images.map (fun img => img.functions.map Function.selfCalls) =
        [[[], [⟨.callSelf, [1]⟩, ⟨.callSelf, [1]⟩, ⟨.tailApplySelf, [0]⟩], []]] ∧
      ∀ (k : Nat) (img : Image), c.images[k]? = some img →
        ∃ e c₀, (Program.read {} Program.recursive).forms[k]? = some e ∧
          compile {} {} ((Program.read {} Program.recursive).forms.take k) = .ok c₀ ∧
          (∀ g ∈ img.functions, (g.name = [] ∧ g.selfCalls = []) ∨
            ∃ pos place own params body, e = .define pos g.name (.lambda place own params body) ∧
              g.params = params.length ∧ g.CallsItself (e.ownUses {} c₀.env)) ∧
          ∀ pos name place own params body, e = .define pos name (.lambda place own params body) →
            ∃ g ∈ img.functions, g.name = name ∧ g.params = params.length ∧
              g.CallsItself (e.ownUses {} c₀.env) := by
  have hcalls : (compile {} {} (Program.read {} Program.recursive).forms).toOption.map
      (fun c => c.images.map fun img => img.functions.map Function.selfCalls) =
        some [[[], [⟨.callSelf, [1]⟩, ⟨.callSelf, [1]⟩, ⟨.tailApplySelf, [0]⟩], []]] := by
    decide +kernel
  have hunary : BuiltinTable.standard.IdentityUnary := by
    unfold BuiltinTable.IdentityUnary
    decide +kernel
  cases h : compile {} {} (Program.read {} Program.recursive).forms with
  | error r =>
    rw [h] at hcalls
    cases hcalls
  | ok c =>
    rw [h] at hcalls
    exact ⟨c, rfl, Option.some.inj hcalls, compile_callsItself hunary h⟩

/-- A function that calls itself in the second argument of the identity. -/
def Program.discarding : Bytes := Text.lit "(define f (lambda (x) (id x (f x))))"

/-- The identity is compiled to its first argument. With others in the table a function may have
uses of its name that are not compiled. -/
theorem Compilation.discarding_omits_call :
    ∃ c, compile { builtins := .selective } {} (Program.read {} Program.discarding).forms = .ok c ∧
      (Program.read {} Program.discarding).forms.map
        (fun e => e.ownUses { builtins := .selective } {}) = [[⟨false, 1, false⟩]] ∧
      c.images.map (fun img => img.functions.map fun g => (g.name, g.selfCalls)) =
        [[(Text.lit "f", []), ([], [])]] := by
  have hcalls : (compile { builtins := .selective } {}
      (Program.read {} Program.discarding).forms).toOption.map
      (fun c => c.images.map fun img => img.functions.map fun g => (g.name, g.selfCalls)) =
        some [[(Text.lit "f", []), ([], [])]] := by
    decide +kernel
  cases h : compile { builtins := .selective } {} (Program.read {} Program.discarding).forms with
  | error r =>
    rw [h] at hcalls
    cases hcalls
  | ok c =>
    rw [h] at hcalls
    exact ⟨c, rfl, by decide +kernel, Option.some.inj hcalls⟩

end StackLisp
