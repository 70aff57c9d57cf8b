import StackLisp.Program
import StackLisp.Proofs.Arguments
import StackLisp.Proofs.Batches
import StackLisp.Proofs.WellFormed

/-! The calls in compiled code. Each has a number of arguments that suits what it calls, also where
the compiler has put another call in the place of the one in the source. -/
namespace StackLisp

open Fragment (op instr)
open Lower

/-- The instructions of the code of a function. -/
def Function.instructions (g : Function) : List Instruction :=
  (Instruction.decodeFrom 0 g.bytes).1.map Instruction.Placed.instr

theorem Function.Built.instructions_eq {earlier : List Function} {g : Function}
    {is : List Instruction} (h : g.Built earlier is) : g.instructions = is := by
  rw [Function.instructions, h.decodeFrom_bytes]
  exact Instruction.map_instr_placeFrom 0 is

def Opcode.isCall : Opcode → Bool
  | .callSys | .callSysArgs | .callSelf | .tailCallSelf | .applySelf | .tailApplySelf | .call
  | .apply | .wide .callConst | .compact .callConst _ => true
  | _ => false

/-- Calls, and the steps that stand for some of them. -/
def Opcode.isOperation (o : Opcode) : Bool := o.isCall || o == .inc || o == .dec

theorem Opcode.not_isCall {o : Opcode} (h : o.isOperation = false) : o.isCall = false := by
  rw [isOperation, Bool.or_eq_false_iff, Bool.or_eq_false_iff] at h
  exact h.1.1

/-- Only loads have a form that pushes. -/
theorem Opcode.not_isOperation_of_pushForm {o o' : Opcode} (h : o.pushForm = some o') :
    o.isOperation = false ∧ o'.isOperation = false := by
  cases o with
  | wide f | compact f k =>
    obtain ⟨f', hf, rfl⟩ := Option.map_eq_some_iff.1 h
    cases f <;> cases hf <;> exact ⟨rfl, rfl⟩
  | unit | truth | falsity =>
    cases h
    exact ⟨rfl, rfl⟩
  | _ => cases h

/-- The number of arguments of a call suits what it calls, in a function with the given name, number
of parameters and pool. A function that calls itself has a name. -/
def Instruction.Suits (table : BuiltinTable) (env : Environment) (name : Bytes) (params : Int)
    (pool : List Constant) (i : Instruction) : Prop :=
  match i.op with
  | .callSys => ∃ b ∈ table.entries, i.operands = [b.id.toNat] ∧ b.arity = .exactly 1
  | .callSysArgs =>
    ∃ b ∈ table.entries, ∃ n : Nat, i.operands = [b.id.toNat, n] ∧ b.arity.accepts n = true
  | .callSelf | .tailCallSelf => name ≠ [] ∧ ∃ n : Nat, i.operands = [n] ∧ params = n
  | .applySelf | .tailApplySelf => name ≠ [] ∧ ∃ n : Nat, i.operands = [n] ∧ n ≤ params
  | .wide .callConst | .compact .callConst _ =>
    ∃ k n : Nat, i = .indexed .callConst k [n] ∧ ∃ c, pool[k]? = some c ∧
      ∀ m arity, c = .value (.name m) → env.find? m = some (.definition arity) → 0 ≤ arity →
        arity = n
  | _ => True

namespace Fragment

/-- The calls of a piece of code. -/
def calls (f : Fragment) : List Instruction := f.instructions.filter fun i => i.op.isCall

variable {f g : Fragment}

@[simp] theorem calls_append (f g : Fragment) : (f ++ g).calls = f.calls ++ g.calls := by
  rw [calls, instructions_append, List.filter_append]
  rfl

@[simp] theorem calls_marked (pos : Position) (f : Fragment) : (f.marked pos).calls = f.calls := rfl

@[simp] theorem calls_landed (f : Fragment) : f.landed.calls = f.calls := rfl

theorem calls_instr {i : Instruction} (h : i.op.isCall = false) : (instr i).calls = [] := by
  rw [calls, instructions_instr, List.filter_cons_of_neg (by rw [h]; decide)]
  rfl

theorem calls_op {o : Opcode} (h : o.isCall = false) (operands : List Nat) :
    (op o operands).calls = [] :=
  calls_instr h

theorem calls_call {i : Instruction} (h : i.op.isCall = true) : (instr i).calls = [i] := by
  unfold calls
  rw [instructions_instr, List.filter_cons, if_pos h]
  rfl

theorem calls_pushed (h : f.Ends) : f.pushed.calls = f.calls := by
  obtain ⟨front, i, hi⟩ := h
  rcases hi.pushed_cases with ⟨-, o, ho, hp⟩ | ⟨-, hp⟩
  · obtain ⟨hload, hpush⟩ := Opcode.not_isOperation_of_pushForm ho
    have hold : f.calls = (⟨front, false⟩ : Fragment).calls ++ (instr i).calls := by
      rw [calls, hi.instructions_eq, List.filter_append]
      rfl
    have hnew : f.pushed.calls =
        (⟨front, false⟩ : Fragment).calls ++ (instr { i with op := o }).calls := by
      rw [hp]
      exact calls_append ⟨front, false⟩ (instr { i with op := o })
    rw [hold, hnew, calls_instr (Opcode.not_isCall hload), calls_instr (Opcode.not_isCall hpush)]
  · rw [hp, calls_append, calls_op rfl, List.append_nil]

theorem calls_returning (f : Fragment) : f.returning.calls = f.calls := by
  unfold returning
  split
  · rfl
  · rw [calls_append, calls_op rfl, List.append_nil]

/-- The piece has instructions only, and none of them is a call or stands for one. -/
def Quiet (f : Fragment) : Prop :=
  ∀ item ∈ f.items, ∃ i, item = .instr i ∧ i.op.isOperation = false

theorem quiet_instr {i : Instruction} (h : i.op.isOperation = false) : (instr i).Quiet :=
  List.forall_mem_singleton.2 ⟨i, rfl, h⟩

theorem Quiet.append (hf : f.Quiet) (hg : g.Quiet) : (f ++ g).Quiet :=
  List.forall_mem_append.2 ⟨hf, hg⟩

theorem quiet_skips (count : Nat) : (⟨skips count, false⟩ : Fragment).Quiet := by
  fun_induction skips count with
  | case1 => exact List.forall_mem_nil _
  | case2 count _ ih => exact List.forall_mem_cons.2 ⟨⟨_, rfl, rfl⟩, ih⟩

theorem Quiet.calls_eq (h : f.Quiet) : f.calls = [] := by
  refine List.filter_eq_nil_iff.2 fun i hi => ?_
  obtain ⟨item, hitem, hinstr⟩ := List.mem_filterMap.1 hi
  obtain ⟨j, rfl, hj⟩ := h item hitem
  cases hinstr
  rw [Opcode.not_isCall hj]
  exact Bool.false_ne_true

theorem calls_skipping (f : Fragment) (count : Nat) : (f.skipping count).calls = f.calls := by
  unfold skipping
  split
  · rfl
  · rw [calls_append, (quiet_skips count).calls_eq, List.append_nil]

end Fragment

namespace Lower

theorem quiet_indexed {family : Family} (h : family ≠ .callConst) (k : Nat) (extra : List Nat) :
    (instr (.indexed family k extra)).Quiet := by
  refine Fragment.quiet_instr ?_
  unfold Instruction.indexed
  split <;> cases family <;> first | rfl | exact absurd rfl h

variable {ctx : Context} {pos : Position} {d d' : Draft} {f : Fragment}

theorem Yields.load_quiet {v : Value} (h : Yields (load ctx pos v) d f d') : f.Quiet := by
  rcases yields_load.1 h with ⟨o, ho, rfl, -⟩ | ⟨-, i, -, rfl⟩
  · refine Fragment.quiet_instr ?_
    cases v with
    | unit | bool b =>
      unfold immediate at ho
      split at ho <;> cases ho <;> rfl
    | _ => cases ho
  · exact quiet_indexed (by decide) i []

theorem Yields.loadName_quiet {name : Bytes} (h : Yields (loadName ctx pos name) d f d') :
    f.Quiet := by
  rcases yields_loadName h with ⟨s, -, rfl, -⟩ | ⟨v, -, hv⟩ | ⟨-, -, -, i, -, rfl⟩
  · exact quiet_indexed (by decide) s []
  · exact hv.load_quiet
  · exact quiet_indexed (by decide) i []

theorem quiet_branch (taken : Bool) (operands : List Nat) :
    (op (branchOn taken) operands).Quiet :=
  Fragment.quiet_instr (by cases taken <;> rfl)

theorem quiet_loadFunction (captured : List (Bytes × Nat)) (i : Nat) :
    (loadFunction captured i).Quiet := by
  unfold loadFunction
  split
  · exact quiet_indexed (by decide) i []
  · refine Fragment.Quiet.append ?_ (Fragment.quiet_instr rfl)
    refine List.forall_mem_map.2 fun c _ => ?_
    have hload : Family.loadPush ≠ .callConst := by decide
    exact quiet_indexed hload c.2 [] _ (.head _)

theorem Yields.callee_self {fn : Expr} (h : Yields (callee ctx fn) d .self d') :
    ∃ place, fn = .ident place ctx.frame.name ∧ ctx.frame.name ≠ [] ∧
      ctx.frame.slot? ctx.frame.name = none := by
  obtain ⟨-, ⟨place, name, rfl, -, hc⟩ | ⟨-, hc⟩⟩ := yields_callee h
  · have hself : ctx.lookup name = .self := by
      cases hl : ctx.lookup name <;> rw [hl] at hc <;> first | rfl | cases hc
    obtain ⟨hslot, hne, rfl⟩ := Context.lookup_eq_self.1 hself
    exact ⟨place, rfl, hne, hslot⟩
  · cases hc

/-- A call by name passes as many arguments as the definition is known to take. -/
theorem Yields.checkArity_eq {v : Value} {argc : Nat} {u : Unit}
    (h : Yields (checkArity ctx pos v argc) d u d') {m : Bytes} {arity : Int} (hv : v = .name m)
    (hm : ctx.env.find? m = some (.definition arity)) (hknown : 0 ≤ arity) : arity = argc := by
  subst hv
  rw [checkArity, hm] at h
  dsimp only [Option.map_some, Symbol.arity] at h
  split at h
  · exact absurd h not_yields_refuse
  · next hfits =>
    by_contra hne
    exact hfits ⟨hknown, hne⟩

/-- The calls that are put in the place of others are those of primitives on one argument. -/
theorem shortcut?_unary {p : Primitive} {args : List (Option Value)} {c : Builtin} {i : Nat}
    (h : shortcut? (.ofPrimitive p) args = some (.unary c i)) :
    ∃ q, c = .ofPrimitive q ∧ q.arity.accepts 1 = true := by
  have hcases : ∃ q ∈ [Primitive.add, .sub, .floorDiv, .floor], c = .ofPrimitive q := by
    unfold shortcut? at h
    rw [Builtin.primitive?_ofPrimitive] at h
    dsimp only at h
    split at h
    · cases h
    · unfold sumShortcut at h
      grind
    · next hp _ =>
      cases hp
      unfold differenceShortcut at h
      grind
    · next hp _ =>
      cases hp
      unfold floorDivShortcut at h
      grind
    · cases h
  obtain ⟨q, hq, hc⟩ := hcases
  have hone : ∀ q ∈ [Primitive.add, .sub, .floorDiv, .floor], q.arity.accepts 1 = true := by decide
  exact ⟨q, hc, hone q hq⟩

theorem suits_callBuiltin {table : BuiltinTable} {env : Environment} {name : Bytes} {params : Int}
    {pool : List Constant} {b : Builtin} {argc : Nat} (hb : b ∈ table.entries)
    (hargc : b.arity.accepts argc = true) :
    ∀ i ∈ (callBuiltin b argc).calls, i.Suits table env name params pool := by
  intro i hi
  unfold callBuiltin at hi
  split at hi
  · next hone =>
    obtain rfl := List.mem_singleton.1 hi
    exact ⟨b, hb, rfl, hone.1⟩
  · obtain rfl := List.mem_singleton.1 hi
    exact ⟨b, hb, argc, rfl, hargc⟩

end Lower

theorem Context.name_enter (ctx : Context) (name : Bytes) (params captures : List Bytes) :
    (ctx.enter name params captures).frame.name = name :=
  Frame.name_bind { name, params := params.length } 0 (params ++ captures)

theorem Context.params_enter (ctx : Context) (name : Bytes) (params captures : List Bytes) :
    (ctx.enter name params captures).frame.params = params.length :=
  Frame.params_bind { name, params := params.length } 0 (params ++ captures)

theorem BuiltinTable.mem_standard (p : Primitive) : .ofPrimitive p ∈ standard.entries := by
  have hmem : p ∈ Primitive.all := by cases p <;> decide
  exact List.mem_map_of_mem hmem

namespace Instruction.Suits

variable {table : BuiltinTable} {env : Environment} {name : Bytes} {params : Int}
  {pool pool' : List Constant} {i : Instruction}

/-- More constants in the pool do not matter. -/
theorem extend (h : i.Suits table env name params pool) (hpool : pool <+: pool') :
    i.Suits table env name params pool' := by
  have named (h : ∃ k n : Nat, i = .indexed .callConst k [n] ∧ ∃ c, pool[k]? = some c ∧
        ∀ m arity, c = .value (.name m) → env.find? m = some (.definition arity) → 0 ≤ arity →
          arity = n) :
      ∃ k n : Nat, i = .indexed .callConst k [n] ∧ ∃ c, pool'[k]? = some c ∧
        ∀ m arity, c = .value (.name m) → env.find? m = some (.definition arity) → 0 ≤ arity →
          arity = n := by
    obtain ⟨k, n, hi, c, hc, hn⟩ := h
    exact ⟨k, n, hi, c, hpool.getElem?_eq_some hc, hn⟩
  obtain ⟨o, operands⟩ := i
  cases o with
  | wide f | compact f k =>
    cases f with
    | callConst => exact named h
    | _ => trivial
  | _ => exact h

end Instruction.Suits

theorem Instruction.suits_callConst {table : BuiltinTable} {env : Environment} {name : Bytes}
    {params : Int} {pool : List Constant} {k n : Nat} {c : Constant} (hc : pool[k]? = some c)
    (hn : ∀ m arity, c = .value (.name m) → env.find? m = some (.definition arity) → 0 ≤ arity →
      arity = n) :
    (indexed .callConst k [n]).Suits table env name params pool := by
  have hcall : ∃ k' n' : Nat, indexed .callConst k [n] = .indexed .callConst k' [n'] ∧
      ∃ c, pool[k']? = some c ∧ ∀ m arity, c = .value (.name m) →
        env.find? m = some (.definition arity) → 0 ≤ arity → arity = n' :=
    ⟨k, n, rfl, c, hc, hn⟩
  have hop : (indexed .callConst k [n]).op = .wide .callConst ∨
      ∃ i, (indexed .callConst k [n]).op = .compact .callConst i := by
    unfold indexed
    split
    · exact .inr ⟨_, rfl⟩
    · exact .inl rfl
  unfold Suits
  rcases hop with hop | ⟨i, hop⟩ <;> rw [hop] <;> exact hcall

/-- The calls of a piece of code suit what they call, with the pool of `d`. -/
def Fragment.Suits (ctx : Context) (d : Draft) (f : Fragment) : Prop :=
  ∀ i ∈ f.calls, i.Suits ctx.options.builtins ctx.env ctx.frame.name ctx.frame.params d.pool

theorem Fragment.suits_bind {ctx : Context} {slot : Nat} {names : List Bytes} {d : Draft}
    {f : Fragment} : f.Suits (ctx.bind slot names) d ↔ f.Suits ctx d := by
  unfold Suits
  rw [show (ctx.bind slot names).frame.name = ctx.frame.name from Frame.name_bind _ _ _,
    show (ctx.bind slot names).frame.params = ctx.frame.params from Frame.params_bind _ _ _]
  rfl

namespace Fragment.Suits

variable {ctx : Context} {d d' : Draft} {f g : Fragment}

theorem of_calls_eq (h : f.Suits ctx d) (heq : g.calls = f.calls) : g.Suits ctx d := by
  unfold Suits
  rw [heq]
  exact h

theorem of_quiet (h : f.calls = []) : f.Suits ctx d := by
  unfold Suits
  rw [h]
  exact List.forall_mem_nil _

theorem append (hf : f.Suits ctx d) (hg : g.Suits ctx d) : (f ++ g).Suits ctx d := by
  unfold Suits
  rw [calls_append]
  exact List.forall_mem_append.2 ⟨hf, hg⟩

theorem extend (h : f.Suits ctx d) (hd : d.pool <+: d'.pool) : f.Suits ctx d' :=
  fun i hi => (h i hi).extend hd

theorem append_quiet (hf : f.Suits ctx d) (hg : g.calls = []) : (f ++ g).Suits ctx d :=
  hf.append (of_quiet hg)

end Fragment.Suits

theorem Emits.suits {ctx : Context} {use : Use} {base depth : Nat} {part : Part} {d d' : Draft}
    {f : Fragment} (h : Emits ctx use base depth part d f d')
    (hstandard : ctx.options.builtins = .standard) : f.Suits ctx d' := by
  induction h with
  | literal hy | callFolded _ _ _ _ hy => exact .of_quiet hy.load_quiet.calls_eq
  | ident hy => exact .of_quiet hy.loadName_quiet.calls_eq
  | marked _ _ ih | negation _ _ ih | callOperand _ _ _ _ _ _ ih | condTrue _ _ ih
  | condFalse _ _ ih | block _ ih | and _ _ ih | or _ _ ih | lambda _ ih | otherwiseSome _ ih
  | sequenceOne _ ih | spreadOne _ ih | operandsOne _ ih | operandAt _ _ ih => exact ih hstandard
  | @callSelf _ use _ _ _ _ args _ _ _ _ hc hargc _ ih =>
    obtain ⟨place, -, hne, -⟩ := hc.callee_self
    refine (ih hstandard).append fun i hi => ?_
    by_cases htail : use = .tail
    · rw [if_pos htail] at hi
      obtain rfl := List.mem_singleton.1 hi
      exact ⟨hne, args.length, rfl, by rw [hargc]⟩
    · rw [if_neg htail] at hi
      obtain rfl := List.mem_singleton.1 hi
      exact ⟨hne, args.length, rfl, by rw [hargc]⟩
  | @applySelf _ use _ _ _ _ args _ _ _ _ _ hc hargc _ ih =>
    obtain ⟨place, -, hne, -⟩ := hc.callee_self
    refine (ih hstandard).append fun i hi => ?_
    by_cases htail : use = .tail
    · rw [if_pos htail] at hi
      obtain rfl := List.mem_singleton.1 hi
      exact ⟨hne, args.length - 1, rfl, Int.ofNat_le.2 hargc⟩
    · rw [if_neg htail] at hi
      obtain rfl := List.mem_singleton.1 hi
      exact ⟨hne, args.length - 1, rfl, Int.ofNat_le.2 hargc⟩
  | @callNamed ctx use base depth pos fn args v k _ _ _ _ _ _ hcheck hi ha ih =>
    have hconst := ha.grows.pool.getElem?_eq_some hi.interned.1
    refine (ih hstandard).append fun i hmem => ?_
    have hcalls : (instr (.indexed .callConst k [args.length])).calls =
        [.indexed .callConst k [args.length]] := by
      refine Fragment.calls_call ?_
      unfold Instruction.indexed
      split <;> rfl
    rw [hcalls] at hmem
    obtain rfl := List.mem_singleton.1 hmem
    refine Instruction.suits_callConst hconst fun m arity hv => ?_
    cases hv
    exact hcheck.checkArity_eq rfl
  | callUnary _ hc _ _ hs hf ih =>
    obtain ⟨place, name, -, hname⟩ := hc.callee_builtin
    obtain ⟨p, rfl⟩ := Context.ofPrimitive_of_lookup hstandard hname
    obtain ⟨q, rfl, hone⟩ := shortcut?_unary hs
    refine ((ih hstandard).of_calls_eq (Fragment.calls_pushed (hf.ends rfl))).append ?_
    refine suits_callBuiltin ?_ hone
    rw [hstandard]
    exact BuiltinTable.mem_standard q
  | callStep _ _ _ _ hs _ ih =>
    refine (ih hstandard).append_quiet ?_
    rcases shortcut?_step hs with rfl | rfl <;> rfl
  | callPlain _ hc haccepts _ _ _ ih =>
    obtain ⟨place, name, -, hname⟩ := hc.callee_builtin
    exact (ih hstandard).append (suits_callBuiltin (Context.mem_of_lookup hname) haccepts)
  | callComputed _ _ hf ha ih₁ ih₂ | applyComputed _ _ _ _ hf ha ih₁ ih₂ =>
    have hfn := ((ih₁ hstandard).of_calls_eq (Fragment.calls_pushed (hf.ends rfl))).extend
      ha.grows.pool
    refine (hfn.append (ih₂ hstandard)).append fun i hi => ?_
    obtain rfl := List.mem_singleton.1 hi
    trivial
  | condTail _ ht hy _ _ hn ih₁ ih₂ ih₃ =>
    have htest := (ih₁ hstandard).extend (hy.grows.pool.trans hn.grows.pool)
    have hyes := ((ih₂ hstandard).of_calls_eq (Fragment.calls_returning _)).extend hn.grows.pool
    exact ((htest.append_quiet (quiet_branch _ _).calls_eq).append hyes).append (ih₃ hstandard)
  | condValue _ _ ht hy _ _ hn _ ih₁ ih₂ ih₃ =>
    have htest := (ih₁ hstandard).extend (hy.grows.pool.trans hn.grows.pool)
    have hyes := (ih₂ hstandard).extend hn.grows.pool
    exact ((((htest.append_quiet (quiet_branch _ _).calls_eq).append hyes).append_quiet rfl).append
      (ih₃ hstandard)).of_calls_eq (Fragment.calls_landed _)
  | letTail hv hb ih₁ ih₂ =>
    have hbody := ih₂ hstandard
    rw [Fragment.suits_bind] at hbody
    exact ((ih₁ hstandard).extend hb.grows.pool).append hbody
  | letValue _ hv hb ih₁ ih₂ =>
    have hbody := ih₂ hstandard
    rw [Fragment.suits_bind] at hbody
    exact (((ih₁ hstandard).extend hb.grows.pool).append hbody).of_calls_eq
      (Fragment.calls_skipping _ _)
  | andEmpty | orEmpty | otherwiseNone | sequenceNil | operandAtNone | argumentsNil | valuesNil =>
    exact .of_quiet rfl
  | function => exact .of_quiet (quiet_loadFunction _ _).calls_eq
  | sequenceCons _ _ hg ih₁ ih₂ =>
    exact ((ih₁ hstandard).extend hg.grows.pool).append (ih₂ hstandard)
  | argumentsCons hf hg ih₁ ih₂ | spreadCons _ hf hg ih₁ ih₂ | valuesCons _ hf hg ih₁ ih₂ =>
    have hfirst := (ih₁ hstandard).of_calls_eq (Fragment.calls_pushed (hf.ends rfl))
    exact (hfirst.extend hg.grows.pool).append (ih₂ hstandard)
  | operandsCons _ _ hg _ _ ih₁ ih₂ =>
    have hfirst := (ih₁ hstandard).extend hg.grows.pool
    exact ((hfirst.append_quiet (quiet_branch _ _).calls_eq).append (ih₂ hstandard)).of_calls_eq
      (Fragment.calls_landed _)

/-- All expressions of a part have a property. -/
def Part.All (Q : Expr → Prop) : Part → Prop
  | .function pos name params _ body => Q (.lambda pos name params body)
  | part => ∀ e ∈ part.exprs, Q e

theorem Part.all_true (part : Part) : part.All fun _ => True := by
  cases part <;> first | trivial | exact fun _ _ => trivial

/-- What holds of every function whose body is compiled in a context with the property `I`, and that
is written with the property `Q`, holds of all functions of a piece of code. The properties are kept
from a context to those inside it and from an expression to its parts. -/
theorem Emits.forall_functions {I : Context → Prop} {Q : Expr → Prop} {P : Function → Prop}
    (hbind : ∀ {ctx : Context} (slot : Nat) (names : List Bytes), I ctx → I (ctx.bind slot names))
    (henter : ∀ {ctx : Context} (name : Bytes) (params captures : List Bytes), I ctx →
      I (ctx.enter name params captures))
    (hchild : ∀ {e x : Expr}, Q e → Compilation.declaredName? e = none → x ∈ e.children → Q x)
    (hfinished : ∀ {ctx : Context} {pos : Position} {name : Bytes} {params : List Bytes}
      {body : List Expr} {captured : List (Bytes × Nat)} {functions : List Function} {b : Fragment}
      {inner : Draft}, I ctx → Q (.lambda pos name params body) →
      params.length + captured.length ≤ Limit.slots →
      Emits (ctx.enter name params (captured.map Prod.fst)) .tail 0
        (params.length + captured.length) (.sequence body)
        { slots := params ++ captured.map Prod.fst, functions } b inner →
      P (finished ctx pos name params captured.length b inner))
    {ctx : Context} {use : Use} {base depth : Nat} {part : Part} {d d' : Draft} {f : Fragment}
    (h : Emits ctx use base depth part d f d') (hctx : I ctx) (hpart : part.All Q)
    (hd : ∀ g ∈ d.functions, P g) : ∀ g ∈ d'.functions, P g := by
  have loaded {ctx : Context} {pos : Position} {v : Value} {d d' : Draft} {f : Fragment}
      (hy : Yields (load ctx pos v) d f d') : d'.functions = d.functions := by
    rcases yields_load.1 hy with ⟨o, -, -, rfl⟩ | ⟨-, i, hi, -⟩
    · rfl
    · exact hi.interned.2.1
  -- The only expression of a part hands the property on to the expressions it is made of.
  have inside {e x : Expr} (he : ∀ y ∈ [e], Q y) (hdecl : Compilation.declaredName? e = none)
      (hx : x ∈ e.children) : Q x := hchild (he e (.head _)) hdecl hx
  have one {e : Expr} (he : Q e) : ∀ y ∈ [e], Q y := List.forall_mem_singleton.2 he
  induction h with
  | literal hy | callFolded _ _ _ _ hy =>
    rw [loaded hy]
    exact hd
  | ident hy =>
    rcases yields_loadName hy with ⟨s, -, -, rfl⟩ | ⟨v, -, hv⟩ | ⟨-, -, -, i, hi, -⟩
    · exact hd
    · rw [loaded hv]
      exact hd
    · rw [hi.interned.2.1]
      exact hd
  | marked _ _ ih | otherwiseSome _ ih | sequenceOne _ ih | spreadOne _ ih | operandsOne _ ih =>
    exact ih hctx hpart hd
  | negation _ _ ih | callSelf _ _ _ _ ih | callOperand _ _ _ _ _ _ ih | callUnary _ _ _ _ _ _ ih
  | callStep _ _ _ _ _ _ ih | callPlain _ _ _ _ _ _ ih | applySelf _ _ _ _ _ ih =>
    exact ih hctx (fun x hx => inside hpart rfl (.tail _ hx)) hd
  | block _ ih | and _ _ ih | or _ _ ih => exact ih hctx (fun x hx => inside hpart rfl hx) hd
  | condTrue _ _ ih => exact ih hctx (one (inside hpart rfl (.tail _ (.head _)))) hd
  | condFalse _ _ ih => exact ih hctx (fun x hx => inside hpart rfl (.tail _ (.tail _ hx))) hd
  | lambda _ ih => exact ih hctx (hpart _ (.head _)) hd
  | callNamed _ _ _ hi _ ih =>
    refine ih hctx (fun x hx => inside hpart rfl (.tail _ hx)) ?_
    rw [hi.interned.2.1]
    exact hd
  | callComputed _ _ _ _ ih₁ ih₂ | applyComputed _ _ _ _ _ _ ih₁ ih₂ =>
    refine ih₂ hctx (fun x hx => inside hpart rfl (.tail _ hx)) ?_
    exact ih₁ hctx (one (inside hpart rfl (.head _))) hd
  | condTail _ _ _ _ _ _ ih₁ ih₂ ih₃ | condValue _ _ _ _ _ _ _ _ ih₁ ih₂ ih₃ =>
    refine ih₃ hctx (fun x hx => inside hpart rfl (.tail _ (.tail _ hx))) ?_
    refine ih₂ hctx (one (inside hpart rfl (.tail _ (.head _)))) ?_
    exact ih₁ hctx (one (inside hpart rfl (.head _))) hd
  | letTail _ _ ih₁ ih₂ | letValue _ _ _ ih₁ ih₂ =>
    refine ih₂ (hbind _ _ hctx) (fun x hx => inside hpart rfl (List.mem_append_right _ hx)) ?_
    exact ih₁ hctx (fun x hx => inside hpart rfl (List.mem_append_left _ hx)) hd
  | sequenceCons _ _ _ ih₁ ih₂ | argumentsCons _ _ ih₁ ih₂ | spreadCons _ _ _ ih₁ ih₂
  | operandsCons _ _ _ _ _ ih₁ ih₂ | valuesCons _ _ _ ih₁ ih₂ =>
    refine ih₂ hctx (fun x hx => hpart x (.tail _ hx)) ?_
    exact ih₁ hctx (one (hpart _ (.head _))) hd
  | operandAt hi _ ih => exact ih hctx (one (hpart _ (List.mem_of_getElem? hi))) hd
  | andEmpty | orEmpty | otherwiseNone | sequenceNil | argumentsNil | operandAtNone | valuesNil =>
    exact hd
  | function _ _ _ hslots _ hb _ ih =>
    have hbody := ih (henter _ _ _ hctx) (fun x hx => hchild hpart rfl hx) hd
    refine List.forall_mem_append.2 ⟨hbody, ?_⟩
    exact List.forall_mem_singleton.2 (hfinished hctx hpart hslots hb)

theorem Instruction.suits_of_not_isCall {table : BuiltinTable} {env : Environment} {name : Bytes}
    {params : Int} {pool : List Constant} {i : Instruction} (h : i.op.isCall = false) :
    i.Suits table env name params pool := by
  obtain ⟨o, operands⟩ := i
  cases o with
  | wide f | compact f k =>
    cases f with
    | callConst => cases h
    | _ => trivial
  | callSys | callSysArgs | callSelf | tailCallSelf | applySelf | tailApplySelf => cases h
  | _ => trivial

/-- All instructions of a function that is made of a piece of code suit what they call. -/
theorem Fragment.Suits.function {ctx : Context} {d : Draft} {f : Fragment} {g : Function}
    {earlier : List Function} (h : f.Suits ctx d)
    (hbuilt : g.Built earlier f.returning.instructions) (hname : g.name = ctx.frame.name)
    (hparams : g.params = ctx.frame.params) (hpool : g.constants = d.pool) :
    ∀ i ∈ g.instructions, i.Suits ctx.options.builtins ctx.env g.name g.params g.constants := by
  intro i hi
  rw [hbuilt.instructions_eq] at hi
  rw [hname, hparams, hpool]
  cases hcall : i.op.isCall with
  | false => exact Instruction.suits_of_not_isCall hcall
  | true =>
    refine h i ?_
    rw [← Fragment.calls_returning]
    exact List.mem_filter.2 ⟨hi, hcall⟩

theorem EmitsForm.suits {ctx : Context} {e : Expr} {f : Fragment} {d : Draft}
    (h : EmitsForm ctx e f d) (hstandard : ctx.options.builtins = .standard) : f.Suits ctx d := by
  cases h with
  | expression _ h => exact h.suits hstandard
  | define _ _ h | const _ _ h => exact (h.suits hstandard).append_quiet rfl
  | defineFunction _ h =>
    exact ((h.suits hstandard).of_calls_eq (Fragment.calls_marked _ _)).append_quiet rfl

theorem EmitsForm.forall_functions {I : Context → Prop} {P : Function → Prop}
    (hpieces : ∀ {ctx : Context} {use : Use} {base depth : Nat} {part : Part} {d d' : Draft}
      {f : Fragment}, Emits ctx use base depth part d f d' → I ctx → (∀ g ∈ d.functions, P g) →
      ∀ g ∈ d'.functions, P g)
    {ctx : Context} {e : Expr} {f : Fragment} {d : Draft} (h : EmitsForm ctx e f d)
    (hctx : I ctx) : ∀ g ∈ d.functions, P g := by
  have hempty {pos : Position} {v : Value} {i : Nat} {d₁ : Draft}
      (hi : Yields (intern ctx pos v) {} i d₁) : ∀ g ∈ d₁.functions, P g := by
    rw [hi.interned.2.1]
    exact List.forall_mem_nil _
  cases h with
  | expression _ h => exact hpieces h hctx (List.forall_mem_nil _)
  | define _ hi h | defineFunction hi h | const _ hi h => exact hpieces h hctx (hempty hi)

/-- What holds of every function that is completed holds of all functions inside a form. -/
theorem EmitsForm.forall_finished {P : Function → Prop}
    (hfinished : ∀ {ctx : Context} {pos : Position} {name : Bytes} {params : List Bytes}
      {body : List Expr} {captured : List (Bytes × Nat)} {functions : List Function} {b : Fragment}
      {inner : Draft}, params.length + captured.length ≤ Limit.slots →
      Emits (ctx.enter name params (captured.map Prod.fst)) .tail 0
        (params.length + captured.length) (.sequence body)
        { slots := params ++ captured.map Prod.fst, functions } b inner →
      P (finished ctx pos name params captured.length b inner))
    {ctx : Context} {e : Expr} {f : Fragment} {d : Draft} (h : EmitsForm ctx e f d) :
    ∀ g ∈ d.functions, P g := by
  refine h.forall_functions (I := fun _ => True) (fun h _ => ?_) trivial
  refine h.forall_functions (I := fun _ => True) (Q := fun _ => True) ?_ ?_ ?_ ?_ trivial
    (Part.all_true _)
  · exact fun _ _ _ => trivial
  · exact fun _ _ _ _ => trivial
  · exact fun _ _ _ => trivial
  · exact fun _ _ hslots hb => hfinished hslots hb

/-- All functions of an image suit what they call, in the environment where the form is
compiled. -/
theorem Compilation.Compiles.suits {options : CompileOptions} {k : Nat} {ctx : Context} {e : Expr}
    {img : Image} (h : Compiles options k ctx e img) (hstandard : options.builtins = .standard) :
    ∀ g ∈ img.functions, ∀ i ∈ g.instructions,
      i.Suits options.builtins ctx.env g.name g.params g.constants := by
  obtain ⟨f, d, hf, rfl⟩ := h.emits
  have hoptions := h.options
  have hframe := h.frame
  let I (c : Context) : Prop := c.options = options ∧ c.env = ctx.env
  refine List.forall_mem_append.2 ⟨?_, List.forall_mem_singleton.2 ?_⟩
  · refine hf.forall_functions (I := I) (fun h hctx => ?_) ⟨hoptions, rfl⟩
    refine h.forall_functions (I := I) (Q := fun _ => True) ?_ ?_ ?_ ?_ hctx (Part.all_true _)
    · exact fun _ _ hctx => hctx
    · exact fun _ _ _ hctx => hctx
    · exact fun _ _ _ => trivial
    · intro c pos name params body captured functions b inner hc _ hslots hb
      have hstd : (c.enter name params (captured.map Prod.fst)).options.builtins = .standard := by
        rw [← hstandard, ← hc.1]
        rfl
      have hsuits : (b.marked pos).Suits _ inner :=
        (hb.suits hstd).of_calls_eq (Fragment.calls_marked pos b)
      have hall := hsuits.function (hb.built hslots) (Context.name_enter c name params _).symm
        (congrArg Int.ofNat (Context.params_enter c name params _).symm) rfl
      rw [← hc.1, ← hc.2]
      exact hall
  · have hsuits := hf.suits (by rw [hoptions, hstandard])
    have hall := hsuits.function (hf.built hframe) (by rw [hframe]; rfl) (by rw [hframe]; rfl) rfl
    rw [← hoptions]
    exact hall

/-- In every image of forms that are compiled with the standard system functions, each call has a
number of arguments that suits what it calls: a system function takes it, the function itself has as
many parameters, and a definition that is known where the form stands takes as many. -/
theorem Compilation.compile_suits {options : CompileOptions} {env : Environment}
    {forms : List Expr} {c : Compilation} (hstandard : options.builtins = .standard)
    (h : compile options env forms = .ok c) (k : Nat) (img : Image)
    (himg : c.images[k]? = some img) :
    ∃ c₀, compile options env (forms.take k) = .ok c₀ ∧
      ∀ g ∈ img.functions, ∀ i ∈ g.instructions,
        i.Suits .standard c₀.env g.name g.params g.constants := by
  obtain ⟨e, c₀, env₁, -, hfront, hone, -⟩ := compile_in_force h himg
  obtain ⟨-, ctx, hcompiles, henv, -⟩ := compiles_alone hone
  have hsuits := hcompiles.suits hstandard
  rw [hstandard, henv] at hsuits
  exact ⟨c₀, hfront, hsuits⟩

/-- A function that calls itself, a sum and a division that become other calls, and a call of an
earlier definition. -/
def Program.rewritten : Bytes :=
  Text.lit "(define f (lambda (a b) (if (= a 0) (+ b 0) (f (- a 1) (// b 1))))) (f 2 7.5)"

theorem Compilation.rewritten_suits :
    ∃ c, compile {} {} (Program.read {} Program.rewritten).forms = .ok c ∧
      c.images.map (fun img => img.functions.map fun g =>
        g.instructions.filter fun i => i.op.isCall) =
        [[[⟨.callSysArgs, [7, 2]⟩, ⟨.callSysArgs, [0, 1]⟩, ⟨.callSys, [15]⟩, ⟨.tailCallSelf, [2]⟩],
          []], [[⟨.compact .callConst 0, [2]⟩]]] ∧
      ∀ (k : Nat) (img : Image), c.images[k]? = some img →
        ∃ c₀, compile {} {} ((Program.read {} Program.rewritten).forms.take k) = .ok c₀ ∧
          ∀ g ∈ img.functions, ∀ i ∈ g.instructions,
            i.Suits .standard c₀.env g.name g.params g.constants := by
  have hcalls : (compile {} {} (Program.read {} Program.rewritten).forms).toOption.map
      (fun c => c.images.map fun img => img.functions.map fun g =>
        g.instructions.filter fun i => i.op.isCall) =
        some [[[⟨.callSysArgs, [7, 2]⟩, ⟨.callSysArgs, [0, 1]⟩, ⟨.callSys, [15]⟩,
          ⟨.tailCallSelf, [2]⟩], []], [[⟨.compact .callConst 0, [2]⟩]]] := by
    decide +kernel
  cases h : compile {} {} (Program.read {} Program.rewritten).forms with
  | error r =>
    rw [h] at hcalls
    cases hcalls
  | ok c =>
    rw [h] at hcalls
    exact ⟨c, rfl, Option.some.inj hcalls, fun k img himg => compile_suits rfl h k img himg⟩

end StackLisp
