import Mathlib.Data.List.Forall2
import StackLisp.Proofs.CallCounts

/-! What the compiler comes to. It begins an expression when it marks its place and makes a call
behind the code of the operands; both are milestones, and code shows them in the order in which the
source has them. -/
namespace StackLisp

open Fragment (op instr)
open Lower

/-! ### What the compiler comes to -/

/-- What happens while a function is compiled: an expression is begun, or all parts of a call are
done and the call itself is made. -/
inductive Milestone where
  | begins (pos : Position)
  | calls (pos : Position)
deriving DecidableEq, Repr

namespace Milestone

def pos : Milestone → Position
  | begins p | calls p => p

/-- What code shows of a milestone: the place where an expression begins, but not whose call is
made. -/
def shown : Milestone → Option Position
  | begins p => some p
  | calls _ => none

end Milestone

/-- The milestones of a piece of code, and those of each function that is completed meanwhile. -/
structure Trail where
  own : List Milestone := []
  functions : List (List Milestone) := []
deriving DecidableEq, Repr

namespace Trail

def begin (pos : Position) : Trail := { own := [.begins pos] }

def call (pos : Position) : Trail := { own := [.calls pos] }

def append (t u : Trail) : Trail := ⟨t.own ++ u.own, t.functions ++ u.functions⟩

instance : Append Trail := ⟨append⟩

/-- The body of a function at `pos` has code of its own. -/
def enclosed (pos : Position) (t : Trail) : Trail :=
  { functions := t.functions ++ [.begins pos :: t.own] }

/-- What follows the beginning of an expression. -/
def rest (t : Trail) : Trail := { t with own := t.own.tail }

/-- The milestones of all functions; the last list belongs to the code itself. -/
def all (t : Trail) : List (List Milestone) := t.functions ++ [t.own]

@[simp] theorem own_append (t u : Trail) : (t ++ u).own = t.own ++ u.own := rfl

@[simp] theorem append_empty (t : Trail) : t ++ ({} : Trail) = t := by
  change Trail.mk _ _ = t
  simp

@[simp] theorem rest_begin (pos : Position) (t : Trail) : (begin pos ++ t).rest = t := rfl

end Trail

namespace Lower

/-- The function of a call as far as it is known. -/
def called (ctx : Context) : Expr → Callee
  | .ident _ name => .ofResolution name (ctx.lookup name)
  | _ => .computed

theorem Yields.called_eq {ctx : Context} {fn : Expr} {c : Callee} {d d' : Draft}
    (h : Yields (callee ctx fn) d c d') : called ctx fn = c := by
  obtain ⟨-, ⟨place, name, rfl, -, rfl⟩ | ⟨hident, rfl⟩⟩ := yields_callee h
  · rfl
  · cases fn with
    | ident place name => exact absurd rfl (hident place name)
    | _ => rfl

mutual
/-- The milestones of an expression, from left to right. Parts whose value is known are not begun,
nor is a negation whose operand is tested in its place. -/
def trail (ctx : Context) (test : Bool) (depth : Nat) : Expr → Trail
  | .literal pos _ | .ident pos _ | .define pos _ _ | .const pos _ _ => .begin pos
  | .call pos fn args =>
    if test = true ∧ isNegation ctx fn args.length then trailAt ctx true depth 0 args
    else .begin pos ++
      match called ctx fn with
      | .self | .named _ => trails ctx 1 depth args ++ .call pos
      | .builtin b =>
        match (Expr.call pos fn args).fold? ctx with
        | some _ => {}
        | none =>
          match shortcut? b (args.map fun e => e.fold? ctx) with
          | some (.operand i) => trailAt ctx false depth i args
          | some (.unary _ i) | some (.step _ i) => trailAt ctx false depth i args ++ .call pos
          | none => trails ctx 1 depth args ++ .call pos
      | .computed => trail ctx false depth fn ++ trails ctx 1 (depth + 1) args ++ .call pos
  | .apply pos fn args => .begin pos ++
    match called ctx fn with
    | .self => trails ctx 1 depth args ++ .call pos
    | _ => trail ctx false depth fn ++ trails ctx 1 (depth + 1) args ++ .call pos
  | .cond pos condition yes no => .begin pos ++
    match condition.fold? ctx with
    | some (.bool true) => trail ctx false depth yes
    | some (.bool false) => trailElse ctx depth no
    | _ => trail ctx true depth condition ++ trail ctx false depth yes ++ trailElse ctx depth no
  | .block pos es | .and pos es | .or pos es => .begin pos ++ trails ctx 0 depth es
  | .letIn pos bindings body => .begin pos ++ (trailValues ctx depth bindings ++
    trails (ctx.bind depth (bindings.map Binding.name)) 0 (depth + bindings.length) body)
  | .lambda pos name params body =>
    let captured := capturedBy ctx name (Expr.freeNames name params body)
    .begin pos ++ (trails (ctx.enter name params (captured.map Prod.fst)) 0
      (params.length + captured.length) body).enclosed pos
termination_by structural e => e

/-- The milestones of expressions that each leave `step` values on the stack. -/
def trails (ctx : Context) (step depth : Nat) : List Expr → Trail
  | [] => {}
  | e :: rest => trail ctx false depth e ++ trails ctx step (depth + step) rest
termination_by structural es => es

/-- The milestones of one of several expressions. -/
def trailAt (ctx : Context) (test : Bool) (depth i : Nat) : List Expr → Trail
  | [] => {}
  | e :: rest =>
    match i with
    | 0 => trail ctx test depth e
    | i + 1 => trailAt ctx test depth i rest
termination_by structural es => es

def trailElse (ctx : Context) (depth : Nat) : Option Expr → Trail
  | none => {}
  | some e => trail ctx false depth e
termination_by structural e => e

def trailValues (ctx : Context) (depth : Nat) : List (Binding Expr) → Trail
  | [] => {}
  | ⟨_, _, e⟩ :: rest => trail ctx false depth e ++ trailValues ctx (depth + 1) rest
termination_by structural bs => bs
end

theorem trail_eq {ctx : Context} {test : Bool} {e : Expr}
    (h : test = true → strips ctx e = false) (depth : Nat) :
    trail ctx test depth e = .begin e.pos ++ (trail ctx false depth e).rest := by
  cases e with
  | call pos fn args =>
    have hstay : ¬ (test = true ∧ isNegation ctx fn args.length = true) := fun hneg =>
      Bool.false_ne_true ((h hneg.1).symm.trans hneg.2)
    rw [trail, trail, if_neg hstay, if_neg fun hneg => Bool.false_ne_true hneg.1]
    rfl
  | _ =>
    rw [trail, trail]
    rfl

end Lower

/-! ### What code shows -/

def Item.shown? : Item → Option (Option Position)
  | .mark p => some (some p)
  | .instr i => if i.op.isOperation then some none else none

namespace Fragment

/-- The marks and the calls of a piece of code, in order. -/
def trace (f : Fragment) : List (Option Position) := f.items.filterMap Item.shown?

@[simp] theorem trace_append (f g : Fragment) : (f ++ g).trace = f.trace ++ g.trace :=
  List.filterMap_append

@[simp] theorem trace_marked (pos : Position) (f : Fragment) :
    (f.marked pos).trace = some pos :: f.trace := rfl

@[simp] theorem trace_landed (f : Fragment) : f.landed.trace = f.trace := rfl

theorem Quiet.trace_eq {f : Fragment} (h : f.Quiet) : f.trace = [] := by
  refine List.filterMap_eq_nil_iff.2 fun item hitem => ?_
  obtain ⟨i, rfl, hi⟩ := h item hitem
  exact if_neg (by rw [hi]; exact Bool.false_ne_true)

theorem trace_instr {i : Instruction} (h : i.op.isOperation = false) : (instr i).trace = [] :=
  (quiet_instr h).trace_eq

theorem trace_op {o : Opcode} (h : o.isOperation = false) (operands : List Nat) :
    (op o operands).trace = [] :=
  trace_instr h

theorem trace_call {i : Instruction} (h : i.op.isOperation = true) :
    (instr i).trace = [none] := by
  have hshown : Item.shown? (.instr i) = some none := if_pos h
  exact List.filterMap_cons_some hshown

theorem trace_pushed {f : Fragment} (h : f.Ends) : f.pushed.trace = f.trace := by
  obtain ⟨front, i, hi⟩ := h
  rcases hi.pushed_cases with ⟨-, o, ho, hp⟩ | ⟨-, hp⟩
  · obtain ⟨hload, hpush⟩ := Opcode.not_isOperation_of_pushForm ho
    have hold : f.trace = (⟨front, false⟩ : Fragment).trace ++ (instr i).trace := by
      rw [trace, show f.items = _ from hi, List.filterMap_append]
      rfl
    rw [hp, hold]
    refine (trace_append ⟨front, false⟩ (instr { i with op := o })).trans ?_
    rw [trace_instr hload, trace_instr hpush]
  · rw [hp, trace_append, trace_op rfl, List.append_nil]

theorem trace_returning (f : Fragment) : f.returning.trace = f.trace := by
  unfold returning
  split
  · rfl
  · rw [trace_append, trace_op rfl, List.append_nil]

theorem trace_skipping (f : Fragment) (count : Nat) : (f.skipping count).trace = f.trace := by
  unfold skipping
  split
  · rfl
  · rw [trace_append, (quiet_skips count).trace_eq, List.append_nil]

end Fragment

namespace Lower

theorem trace_callBuiltin (b : Builtin) (argc : Nat) : (callBuiltin b argc).trace = [none] := by
  unfold callBuiltin
  split <;> exact Fragment.trace_call rfl

theorem trace_callConst (k argc : Nat) :
    (instr (.indexed .callConst k [argc])).trace = [none] := by
  refine Fragment.trace_call ?_
  unfold Instruction.indexed
  split <;> rfl

end Lower

/-! ### Code follows the source -/

/-- The code of a function shows the milestones, which do not start with a call. -/
structure Function.Follows (g : Function) (ms : List Milestone) : Prop where
  code : ∃ (earlier : List Function) (f : Fragment), g.Built earlier f.instructions ∧
    g.locations = f.locations ∧ f.trace = ms.map Milestone.shown
  led : ∀ p, ms.head? ≠ some (.calls p)

/-- The piece of code shows the milestones, and so do the functions that are completed from `d` to
`d'`. -/
structure Trail.LeftBy (t : Trail) (f : Fragment) (d d' : Draft) : Prop where
  trace : f.trace = t.own.map Milestone.shown
  functions : ∃ gs, d'.functions = d.functions ++ gs ∧
    List.Forall₂ Function.Follows gs t.functions

namespace Trail.LeftBy

variable {t u : Trail} {f g : Fragment} {d d₁ d' : Draft}

theorem append (ht : t.LeftBy f d d₁) (hu : u.LeftBy g d₁ d') : (t ++ u).LeftBy (f ++ g) d d' where
  trace := by rw [Fragment.trace_append, ht.trace, hu.trace, own_append, List.map_append]
  functions := by
    obtain ⟨gs, hgs, hfollows⟩ := ht.functions
    obtain ⟨hs, hhs, hmore⟩ := hu.functions
    exact ⟨gs ++ hs, by rw [hhs, hgs, List.append_assoc], List.rel_append hfollows hmore⟩

theorem of_trace_eq (h : t.LeftBy f d d') (heq : g.trace = f.trace) : t.LeftBy g d d' :=
  ⟨heq.trans h.trace, h.functions⟩

theorem pushed (h : t.LeftBy f d d') (he : f.Ends) : t.LeftBy f.pushed d d' :=
  h.of_trace_eq (Fragment.trace_pushed he)

theorem of_functions_eq (h : t.LeftBy f d₁ d') (heq : d₁.functions = d.functions) :
    t.LeftBy f d d' :=
  ⟨h.trace, heq ▸ h.functions⟩

theorem quiet (hf : f.trace = []) (hd : d'.functions = d.functions) :
    ({} : Trail).LeftBy f d d' :=
  ⟨hf, [], by rw [hd, List.append_nil], .nil⟩

theorem append_quiet (h : t.LeftBy f d d') (hg : g.trace = []) : t.LeftBy (f ++ g) d d' :=
  h.of_trace_eq (by rw [Fragment.trace_append, hg, List.append_nil])

theorem call (h : t.LeftBy f d d') (hg : g.trace = [none]) (pos : Position) :
    (t ++ .call pos).LeftBy (f ++ g) d d' :=
  h.append ⟨hg, [], (List.append_nil _).symm, .nil⟩

theorem marked (h : t.LeftBy f d d') (pos : Position) :
    (Trail.begin pos ++ t).LeftBy (f.marked pos) d d' :=
  ⟨by rw [Fragment.trace_marked, h.trace]; rfl, h.functions⟩

/-- A function is completed behind those in its body. -/
theorem function {ctx : Context} {pos : Position} {name : Bytes} {params : List Bytes}
    {captures i : Nat} {captured : List (Bytes × Nat)} {slots : List Bytes} {inner : Draft}
    (h : t.LeftBy f { slots, functions := d.functions } inner)
    (hbuilt : (finished ctx pos name params captures f inner).Built inner.functions
      (f.marked pos).returning.instructions) :
    (t.enclosed pos).LeftBy (loadFunction captured i) d
      { d with
        pool := d.pool ++ [.function inner.functions.length]
        functions := inner.functions ++ [finished ctx pos name params captures f inner] } where
  trace := (quiet_loadFunction _ _).trace_eq
  functions := by
    obtain ⟨gs, hgs, hfollows⟩ := h.functions
    refine ⟨gs ++ [finished ctx pos name params captures f inner], ?_, ?_⟩
    · rw [hgs, List.append_assoc]
    · refine List.rel_append hfollows (.cons ⟨⟨_, _, hbuilt, rfl, ?_⟩, by simp⟩ .nil)
      rw [Fragment.trace_returning, Fragment.trace_marked, h.trace]
      rfl

end Trail.LeftBy

namespace Lower

variable {ctx : Context} {pos : Position} {d d' : Draft} {f : Fragment}

theorem Yields.load_leftBy {v : Value} (h : Yields (load ctx pos v) d f d') :
    ({} : Trail).LeftBy f d d' := by
  refine .quiet h.load_quiet.trace_eq ?_
  rcases yields_load.1 h with ⟨o, -, -, rfl⟩ | ⟨-, i, hi, -⟩
  · rfl
  · exact hi.interned.2.1

theorem Yields.loadName_leftBy {name : Bytes} (h : Yields (loadName ctx pos name) d f d') :
    ({} : Trail).LeftBy f d d' := by
  refine .quiet h.loadName_quiet.trace_eq ?_
  rcases yields_loadName h with ⟨s, -, -, rfl⟩ | ⟨v, -, hv⟩ | ⟨-, -, -, i, hi, -⟩
  · rfl
  · rcases yields_load.1 hv with ⟨o, -, -, rfl⟩ | ⟨-, i, hi, -⟩
    · rfl
    · exact hi.interned.2.1
  · exact hi.interned.2.1

theorem rest_cond {depth : Nat} {test yes : Expr} {no : Option Expr}
    (h : ∀ b, test.fold? ctx ≠ some (.bool b)) :
    (trail ctx false depth (.cond pos test yes no)).rest =
      trail ctx true depth test ++ trail ctx false depth yes ++ trailElse ctx depth no := by
  rw [trail, Trail.rest_begin]
  split
  · next hfold => exact absurd hfold (h true)
  · next hfold => exact absurd hfold (h false)
  · rfl

theorem trailAt_of_getElem? {test : Bool} {depth i : Nat} {es : List Expr} {e : Expr}
    (h : es[i]? = some e) : trailAt ctx test depth i es = trail ctx test depth e := by
  induction es generalizing i with
  | nil => cases h
  | cons x es ih =>
    cases i with
    | zero =>
      cases h
      rw [trailAt]
    | succ i =>
      rw [trailAt]
      exact ih h

theorem trailAt_of_none {test : Bool} {depth i : Nat} {es : List Expr} (h : es[i]? = none) :
    trailAt ctx test depth i es = {} := by
  induction es generalizing i with
  | nil => rw [trailAt]
  | cons x es ih =>
    cases i with
    | zero => cases h
    | succ i =>
      rw [trailAt]
      exact ih h

end Lower

/-- The trail of a part, where its code is asked for the given use. A use as a test is passed on
only through negations. -/
def Part.LeftBy (ctx : Context) (use : Use) (depth : Nat) (f : Fragment) (d d' : Draft) :
    Part → Prop
  | .expr e => (trail ctx (use == .test) depth e).LeftBy f d d'
  | .bare e => (trail ctx false depth e).rest.LeftBy f d d'
  | .otherwise no => use ≠ .test → (trailElse ctx depth no).LeftBy f d d'
  | .sequence es | .operands _ es => use ≠ .test → (trails ctx 0 depth es).LeftBy f d d'
  | .arguments es | .spread es => (trails ctx 1 depth es).LeftBy f d d'
  | .operandAt i es => (trailAt ctx (use == .test) depth i es).LeftBy f d d'
  | .values bs => (trailValues ctx depth bs).LeftBy f d d'
  | .function pos name params free body =>
    let captured := capturedBy ctx name free
    ((trails (ctx.enter name params (captured.map Prod.fst)) 0 (params.length + captured.length)
      body).enclosed pos).LeftBy f d d'

section
variable {ctx : Context} {use : Use} {base depth : Nat} {part : Part} {d d' : Draft} {f : Fragment}

theorem Part.LeftBy.value {e : Expr} (h : (Part.expr e).LeftBy ctx use depth f d d')
    (hvalue : use ≠ .test) : (trail ctx false depth e).LeftBy f d d' := by
  rwa [Part.LeftBy, beq_eq_false_iff_ne.2 hvalue] at h

/-- Code shows what the compiler comes to. -/
theorem Emits.leftBy (h : Emits ctx use base depth part d f d') :
    part.LeftBy ctx use depth f d d' := by
  have hplain {q : Prop} : ¬ (false = true ∧ q) := fun h => Bool.false_ne_true h.1
  induction h with
  | marked hstrips _ ih =>
    rw [Part.LeftBy, trail_eq fun htest => hstrips (beq_iff_eq.1 htest)]
    exact ih.marked _
  | negation hneg _ ih =>
    rw [Part.LeftBy, trail, if_pos ⟨rfl, hneg⟩]
    exact ih
  | literal hy =>
    rw [Part.LeftBy, trail]
    exact hy.load_leftBy
  | ident hy =>
    rw [Part.LeftBy, trail]
    exact hy.loadName_leftBy
  | callSelf _ hc _ _ ih =>
    rw [Part.LeftBy, trail, if_neg hplain, Trail.rest_begin, hc.called_eq]
    refine ih.call ?_ _
    split <;> rfl
  | callNamed _ hc _ hi _ ih =>
    rw [Part.LeftBy, trail, if_neg hplain, Trail.rest_begin, hc.called_eq]
    exact (ih.call (trace_callConst _ _) _).of_functions_eq hi.interned.2.1
  | callFolded _ hc _ hfold hy =>
    rw [Part.LeftBy, trail, if_neg hplain, Trail.rest_begin, hc.called_eq]
    simp only [hfold]
    exact hy.load_leftBy
  | callOperand _ hc _ hfold hs _ ih =>
    rw [Part.LeftBy, trail, if_neg hplain, Trail.rest_begin, hc.called_eq]
    simp only [hfold, hs]
    exact ih
  | callUnary _ hc _ hfold hs hf ih =>
    rw [Part.LeftBy, trail, if_neg hplain, Trail.rest_begin, hc.called_eq]
    simp only [hfold, hs]
    exact (ih.pushed (hf.ends rfl)).call (trace_callBuiltin _ _) _
  | callStep _ hc _ hfold hs _ ih =>
    rw [Part.LeftBy, trail, if_neg hplain, Trail.rest_begin, hc.called_eq]
    simp only [hfold, hs]
    refine ih.call ?_ _
    rcases shortcut?_step hs with rfl | rfl <;> rfl
  | callPlain _ hc _ hfold hs _ ih =>
    rw [Part.LeftBy, trail, if_neg hplain, Trail.rest_begin, hc.called_eq]
    simp only [hfold, hs]
    exact ih.call (trace_callBuiltin _ _) _
  | callComputed _ hc hf _ ih₁ ih₂ =>
    rw [Part.LeftBy, trail, if_neg hplain, Trail.rest_begin, hc.called_eq]
    exact ((ih₁.pushed (hf.ends rfl)).append ih₂).call rfl _
  | applySelf _ _ hc _ _ ih =>
    rw [Part.LeftBy, trail, Trail.rest_begin, hc.called_eq]
    refine ih.call ?_ _
    split <;> rfl
  | @applyComputed _ _ _ _ _ _ _ c _ _ _ _ _ _ _ hc hself hf _ ih₁ ih₂ =>
    rw [Part.LeftBy, trail, Trail.rest_begin, hc.called_eq]
    have hoperands := (ih₁.pushed (hf.ends rfl)).append ih₂
    cases c with
    | self => exact absurd rfl hself
    | _ => exact hoperands.call rfl _
  | condTrue hfold _ ih =>
    rw [Part.LeftBy, trail, Trail.rest_begin]
    simp only [hfold]
    exact ih.value (Use.last_ne_test _)
  | condFalse hfold _ ih =>
    rw [Part.LeftBy, trail, Trail.rest_begin]
    simp only [hfold]
    exact ih (Use.last_ne_test _)
  | condTail hfold _ _ _ _ _ ih₁ ih₂ ih₃ =>
    rw [Part.LeftBy, rest_cond hfold]
    have hyes := (ih₂.value (by decide)).of_trace_eq (Fragment.trace_returning _)
    exact ((ih₁.append_quiet (quiet_branch _ _).trace_eq).append hyes).append (ih₃ (by decide))
  | condValue _ hfold _ _ _ _ _ _ ih₁ ih₂ ih₃ =>
    rw [Part.LeftBy, rest_cond hfold]
    refine Trail.LeftBy.of_trace_eq ?_ (Fragment.trace_landed _)
    exact (((ih₁.append_quiet (quiet_branch _ _).trace_eq).append (ih₂.value (by decide))).append_quiet
      (Fragment.trace_op (o := .jump) rfl _)).append (ih₃ (by decide))
  | block _ ih =>
    rw [Part.LeftBy, trail, Trail.rest_begin]
    exact ih (Use.last_ne_test _)
  | letTail _ _ ih₁ ih₂ =>
    rw [Part.LeftBy, trail, Trail.rest_begin]
    exact ih₁.append ((ih₂ (by decide)).of_functions_eq rfl)
  | letValue _ _ _ ih₁ ih₂ =>
    rw [Part.LeftBy, trail, Trail.rest_begin]
    have hparts := ih₁.append ((ih₂ (by decide)).of_functions_eq rfl)
    exact hparts.of_trace_eq (Fragment.trace_skipping _ _)
  | andEmpty | orEmpty =>
    rw [Part.LeftBy, trail, Trail.rest_begin, trails]
    exact .quiet rfl rfl
  | and _ _ ih | or _ _ ih =>
    rw [Part.LeftBy, trail, Trail.rest_begin]
    exact ih (Use.last_ne_test _)
  | lambda _ ih =>
    rw [Part.LeftBy, trail, Trail.rest_begin]
    exact ih
  | function _ hcaptured _ hslots _ hb _ ih =>
    subst hcaptured
    exact (ih (by decide)).function (hb.built hslots)
  | otherwiseNone =>
    intro _
    rw [trailElse]
    exact .quiet rfl rfl
  | otherwiseSome _ ih =>
    intro hvalue
    rw [trailElse]
    exact ih.value hvalue
  | sequenceNil =>
    intro _
    rw [trails]
    exact .quiet rfl rfl
  | sequenceOne _ ih | operandsOne _ ih =>
    intro hvalue
    rw [trails, trails, Trail.append_empty]
    exact ih.value hvalue
  | sequenceCons _ _ _ ih₁ ih₂ =>
    intro hvalue
    rw [trails]
    exact (ih₁.value (by decide)).append (ih₂ hvalue)
  | operandsCons _ _ _ _ _ ih₁ ih₂ =>
    intro hvalue
    rw [trails]
    refine Trail.LeftBy.of_trace_eq ?_ (Fragment.trace_landed _)
    exact ((ih₁.value (by decide)).append_quiet (quiet_branch _ _).trace_eq).append (ih₂ hvalue)
  | argumentsNil =>
    rw [Part.LeftBy, trails]
    exact .quiet rfl rfl
  | spreadOne _ ih =>
    rw [Part.LeftBy, trails, trails, Trail.append_empty]
    exact ih
  | argumentsCons hf _ ih₁ ih₂ | spreadCons _ hf _ ih₁ ih₂ =>
    rw [Part.LeftBy, trails]
    exact (ih₁.pushed (hf.ends rfl)).append ih₂
  | operandAt hi _ ih =>
    rw [Part.LeftBy, trailAt_of_getElem? hi]
    exact ih
  | operandAtNone hi =>
    rw [Part.LeftBy, trailAt_of_none hi]
    exact .quiet rfl rfl
  | valuesNil =>
    rw [Part.LeftBy, trailValues]
    exact .quiet rfl rfl
  | valuesCons _ hf _ ih₁ ih₂ =>
    rw [Part.LeftBy, trailValues]
    exact (ih₁.pushed (hf.ends rfl)).append ih₂

end

namespace Compilation

/-- The milestones of a form. A constant has its value when it is compiled. -/
def trail (ctx : Context) : Expr → Trail
  | .define _ name (.lambda pos own params body) =>
    let captured := capturedBy ctx name (Expr.freeNames own params body)
    .begin pos ++ (trails (ctx.enter name params (captured.map Prod.fst)) 0
      (params.length + captured.length) body).enclosed pos
  | .define _ _ value => Lower.trail ctx false 0 value
  | .const _ _ _ => {}
  | e => Lower.trail ctx false 0 e

end Compilation

theorem EmitsForm.leftBy {ctx : Context} {e : Expr} {f : Fragment} {d : Draft}
    (h : EmitsForm ctx e f d) : (Compilation.trail ctx e).LeftBy f {} d := by
  cases h with
  | expression hdecl h =>
    have heq : Compilation.trail ctx e = Lower.trail ctx false 0 e := by
      cases e with
      | define | const => cases hdecl
      | _ => rfl
    rw [heq]
    exact h.leftBy.value (by decide)
  | @define pos name value i d₁ f d hvalue hi h =>
    have heq : Compilation.trail ctx (.define pos name value) = Lower.trail ctx false 0 value := by
      cases value with
      | lambda => exact absurd rfl (hvalue _ _ _ _)
      | _ => rfl
    rw [heq]
    exact ((h.leftBy.value (by decide)).of_functions_eq hi.interned.2.1).append_quiet
      (Fragment.trace_op rfl _)
  | defineFunction hi h =>
    exact ((h.leftBy.marked _).of_functions_eq hi.interned.2.1).append_quiet
      (Fragment.trace_op rfl _)
  | const _ hi h =>
    have hload := h.leftBy
    rw [Part.LeftBy, Lower.trail] at hload
    exact (hload.of_functions_eq hi.interned.2.1).append_quiet (Fragment.trace_op rfl _)

theorem Lower.led_trail (ctx : Context) (depth : Nat) (e : Expr) (p : Position) :
    (trail ctx false depth e).own.head? ≠ some (.calls p) := by
  rw [trail_eq fun h => absurd h Bool.false_ne_true]
  simp [Trail.begin]

theorem Compilation.led_trail (ctx : Context) (e : Expr) (p : Position) :
    (trail ctx e).own.head? ≠ some (.calls p) := by
  unfold trail
  split
  · simp [Trail.begin]
  · exact Lower.led_trail _ _ _ _
  · simp
  · exact Lower.led_trail _ _ _ _

/-- All functions of an image follow the form. -/
theorem Compilation.Compiles.follows {options : CompileOptions} {k : Nat} {ctx : Context}
    {e : Expr} {img : Image} (h : Compiles options k ctx e img) :
    List.Forall₂ Function.Follows img.functions (trail ctx e).all := by
  obtain ⟨f, d, hf, rfl⟩ := h.emits
  obtain ⟨gs, hgs, hfollows⟩ := hf.leftBy.functions
  have hentry : (entry ctx f d).Follows (trail ctx e).own :=
    ⟨⟨_, _, hf.built h.frame, rfl, by rw [Fragment.trace_returning, hf.leftBy.trace]⟩,
      led_trail ctx e⟩
  have hall : d.functions = gs := hgs
  rw [hall]
  exact List.rel_append hfollows (.cons hentry .nil)

end StackLisp
