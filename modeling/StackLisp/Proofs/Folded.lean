import StackLisp.Proofs.Flow

/-! Code of expressions whose value is known at compile time. Such an expression is compiled as its
value is: conditionals around it leave no code, and what they rule out is not looked at. -/
namespace StackLisp

open Fragment (op instr)
open Lower (Yields immediate)

/-- The part of an expression that is compiled in its place, behind conditionals whose truth is
known. -/
inductive Expr.Taken (ctx : Context) : Expr → Expr → Prop where
  | here {e} : Taken ctx e e
  | yes {pos test yes no e} : test.fold? ctx = some (.bool true) → Taken ctx yes e →
      Taken ctx (.cond pos test yes no) e
  | no {pos test yes no e} : test.fold? ctx = some (.bool false) → Taken ctx no e →
      Taken ctx (.cond pos test yes (some no)) e

/-- Only calls of system functions by name, with a number of arguments that they accept, have a
value. -/
theorem Expr.builtin_of_fold? {ctx : Context} {pos : Position} {fn : Expr} {args : List Expr}
    {v : Value} (h : (call pos fn args).fold? ctx = some v) :
    ∃ place n b, fn = ident place n ∧ ctx.resolve n = .builtin b ∧
      b.arity.accepts args.length = true := by
  cases fn with
  | ident place n =>
    rw [fold?] at h
    split at h
    · next b hb =>
      split at h
      · next haccepts => exact ⟨place, n, b, rfl, hb, haccepts⟩
      · cases h
    · cases h
  | _ => cases h

/-- A conditional has a value if the truth of its test is known and the branch it takes has one. -/
theorem Expr.branch_of_fold? {ctx : Context} {pos : Position} {test yes : Expr} {no : Option Expr}
    {v : Value} (h : (cond pos test yes no).fold? ctx = some v) :
    (test.fold? ctx = some (.bool true) ∧ yes.fold? ctx = some v) ∨
      (test.fold? ctx = some (.bool false) ∧
        (no = none ∧ v = .unit ∨ ∃ e, no = some e ∧ e.fold? ctx = some v)) := by
  cases no with
  | none =>
    rw [fold?] at h
    split at h
    · next ht => exact .inl ⟨ht, h⟩
    · next ht => exact .inr ⟨ht, .inl ⟨rfl, (Option.some.inj h).symm⟩⟩
    · cases h
  | some no =>
    rw [fold?] at h
    split at h
    · next ht => exact .inl ⟨ht, h⟩
    · next ht => exact .inr ⟨ht, .inr ⟨no, rfl, h⟩⟩
    · cases h

namespace Fragment

/-- A piece with several marks in front. -/
def behind (marks : List Position) (f : Fragment) : Fragment :=
  { f with items := marks.map .mark ++ f.items }

@[simp] theorem instructions_behind (marks : List Position) (f : Fragment) :
    (f.behind marks).instructions = f.instructions := by
  induction marks with
  | nil => rfl
  | cons pos marks ih => exact ih

end Fragment

/-- The piece `f` loads the value with one instruction and does nothing else. The stack keeps its
depth, and of the draft at most the pool grows, by the value. -/
structure Value.LoadedBy (v : Value) (d : Draft) (f : Fragment) (d' : Draft) : Prop where
  code : (∃ o, immediate v = some o ∧ f.instructions = [⟨o, []⟩]) ∨
    ∃ i, f.instructions = [.indexed .const i] ∧ d'.pool[i]? = some (.value v)
  depth : ∀ i ∈ f.instructions, ∀ n, i.depthAfter n = n
  pool : d'.pool = d.pool ∨ d'.pool = d.pool ++ [.value v]
  slots : d'.slots = d.slots
  functions : d'.functions = d.functions

theorem Value.LoadedBy.behind {v : Value} {d d' : Draft} {f : Fragment} (h : v.LoadedBy d f d')
    (marks : List Position) : v.LoadedBy d (f.behind marks) d' where
  code := by
    rw [Fragment.instructions_behind]
    exact h.code
  depth := by
    rw [Fragment.instructions_behind]
    exact h.depth
  pool := h.pool
  slots := h.slots
  functions := h.functions

namespace Lower

variable {ctx : Context} {use : Use} {base depth : Nat} {e : Expr} {v : Value} {pos : Position}
  {d d' : Draft} {f : Fragment}

theorem map_apply {α β : Type} (g : α → β) (m : Lower α) (d : Draft) :
    (g <$> m) d = ((m d).1.map g, (m d).2) := by
  rw [← bind_pure_comp]
  change ExceptT.bindCont (m := StateM Draft) (fun a => pure (g a)) (m d).1 (m d).2 = _
  cases (m d).1 <;> rfl

theorem map_refuse {α β : Type} (g : α → β) (r : Refusal) :
    g <$> (refuse pos r : Lower α) = refuse pos r := rfl

theorem map_behind (marks : List Position) (m : Lower Fragment) :
    Fragment.marked pos <$> (Fragment.behind marks <$> m) =
      Fragment.behind (pos :: marks) <$> m := by
  rw [← comp_map]
  rfl

/-- Code that loads a value, with marks in front. -/
def Loading (ctx : Context) (v : Value) (m : Lower Fragment) : Prop :=
  ∃ marks pos, m = Fragment.behind marks <$> load ctx pos v

theorem loading_load (ctx : Context) (pos : Position) (v : Value) :
    Loading ctx v (load ctx pos v) :=
  ⟨[], pos, (id_map _).symm⟩

theorem Loading.marked {m : Lower Fragment} (h : Loading ctx v m) (pos : Position) :
    Loading ctx v (Fragment.marked pos <$> m) := by
  obtain ⟨marks, place, rfl⟩ := h
  exact ⟨pos :: marks, place, map_behind marks _⟩

/-- The call that is compiled for the expression has too many arguments, for which it is refused. -/
def Overfull (ctx : Context) (e : Expr) (m : Lower Fragment) : Prop :=
  ∃ pos fn args, e.Taken ctx (.call pos fn args) ∧ Limit.arguments < args.length ∧
    m = refuse pos (.tooManyArguments args.length)

theorem resolve_of_bound {n : Bytes} {r : Resolution} (h : ctx.resolve n = r) (hr : r ≠ .unbound) :
    resolve ctx pos n = pure r := by
  have hlookup : ctx.lookup n = r := by
    rw [Context.lookup, h]
    cases r with
    | unbound => exact absurd rfl hr
    | _ => rfl
  rw [resolve, hlookup]
  cases r with
  | unbound => exact absurd rfl hr
  | _ => rfl

theorem callee_builtin {place : Position} {n : Bytes} {b : Builtin}
    (h : ctx.resolve n = .builtin b) : callee ctx (.ident place n) = pure (.builtin b) := by
  rw [callee, resolve_of_bound h (by intro hr; cases hr)]
  rfl

theorem loadName_constant {n : Bytes} (h : ctx.resolve n = .constant v) :
    loadName ctx pos n = load ctx pos v := by
  rw [loadName, resolve_of_bound h (by intro hr; cases hr)]
  rfl

theorem loading_call {fn : Expr} {args : List Expr} (huse : use ≠ .test)
    (h : (Expr.call pos fn args).fold? ctx = some v) :
    Loading ctx v (expr ctx use base depth (.call pos fn args)) ∨
      Overfull ctx (.call pos fn args) (expr ctx use base depth (.call pos fn args)) := by
  obtain ⟨place, n, b, rfl, hb, haccepts⟩ := Expr.builtin_of_fold? h
  rw [expr, if_neg fun hnot => huse hnot.1]
  by_cases hlimit : args.length > Limit.arguments
  · exact .inr ⟨pos, _, args, .here, hlimit, by rw [if_pos hlimit]; rfl⟩
  · left
    rw [if_neg hlimit, callee_builtin hb]
    simp only [pure_bind, haccepts, h]
    exact (loading_load ctx pos v).marked pos

theorem loading_of_fold? (huse : use ≠ .test) (h : e.fold? ctx = some v) :
    Loading ctx v (expr ctx use base depth e) ∨ Overfull ctx e (expr ctx use base depth e) := by
  induction e using Expr.induction generalizing use with
  | literal pos w =>
    cases h
    rw [expr]
    exact .inl ((loading_load ctx pos v).marked pos)
  | ident pos n =>
    rw [Expr.fold?] at h
    split at h
    · next hn =>
      cases h
      rw [expr, loadName_constant hn]
      exact .inl ((loading_load ctx pos v).marked pos)
    · cases h
  | call pos fn args => exact loading_call huse h
  | cond pos test yes no _ ihyes ihno =>
    have taken {m : Lower Fragment} {e' : Expr} (hm : Loading ctx v m ∨ Overfull ctx e' m)
        (hpath : ∀ c, e'.Taken ctx c → (Expr.cond pos test yes no).Taken ctx c) :
        Loading ctx v (Fragment.marked pos <$> m) ∨
          Overfull ctx (.cond pos test yes no) (Fragment.marked pos <$> m) := by
      rcases hm with hm | ⟨place, fn, args, hpart, hlimit, rfl⟩
      · exact .inl (hm.marked pos)
      · exact .inr ⟨place, fn, args, hpath _ hpart, hlimit, map_refuse _ _⟩
    rw [expr]
    rcases Expr.branch_of_fold? h with ⟨ht, hv⟩ | ⟨ht, ⟨rfl, rfl⟩ | ⟨no, rfl, hv⟩⟩
    · rw [ht]
      exact taken (ihyes use.last_ne_test hv) fun c => .yes ht
    · rw [ht, otherwise]
      exact .inl ((loading_load ctx pos .unit).marked pos)
    · rw [ht, otherwise]
      exact taken (ihno no rfl use.last_ne_test hv) fun c => .no ht
  | _ => cases h

theorem loadedBy_of_yields (h : Yields (load ctx pos v) d f d') : v.LoadedBy d f d' := by
  rcases yields_load.1 h with ⟨o, ho, rfl, rfl⟩ | ⟨_, i, hi, rfl⟩
  · have hdepth : ∀ n, (⟨o, []⟩ : Instruction).depthAfter n = n := by
      unfold immediate at ho
      split at ho <;> cases ho <;> exact fun n => rfl
    exact ⟨.inl ⟨o, ho, rfl⟩, by simpa using hdepth, .inl rfl, rfl, rfl⟩
  · obtain ⟨hget, hfunctions, hpool⟩ := hi.interned
    have hslots : d'.slots = d.slots := by
      rcases yields_intern.1 hi with ⟨_, rfl⟩ | ⟨_, hadd⟩
      · rfl
      · obtain ⟨_, _, rfl⟩ := yields_addConstant.1 hadd
        rfl
    have hdepth : ∀ n, (Instruction.indexed .const i).depthAfter n = n := by
      unfold Instruction.indexed
      split <;> exact fun n => rfl
    exact ⟨.inr ⟨i, rfl, hget⟩, by simpa using hdepth, hpool.imp_right And.right, hslots,
      hfunctions⟩

theorem load_of_immediate_eq_none (h : immediate v = none) :
    load ctx pos v = (fun i => instr (.indexed .const i)) <$> intern ctx pos v := by
  rw [← bind_pure_comp]
  cases v with
  | unit => cases h
  | bool b => cases b <;> cases h
  | _ => rfl

theorem bind_of_yields {α β : Type} {m : Lower α} {k : α → Lower β} {a : α}
    (h : Yields m d a d') : (m >>= k) d = k a d' := by
  change ExceptT.bindCont k (m d).1 (m d).2 = _
  rw [h]
  rfl

/-- Whether a value can be loaded does not depend on its place. -/
theorem load_outcome (ctx : Context) (v : Value) (d : Draft) :
    (∃ f d', v.LoadedBy d f d' ∧ ∀ pos, load ctx pos v d = (.ok f, d')) ∨
      ∀ pos, load ctx pos v d = (.error ⟨.tooManyConstants ctx.owner, pos⟩, d) := by
  cases himm : immediate v with
  | some o =>
    have hload (pos : Position) : Yields (load ctx pos v) d (op o) d :=
      yields_load.2 (.inl ⟨o, himm, rfl, rfl⟩)
    exact .inl ⟨op o, d, loadedBy_of_yields (hload {}), hload⟩
  | none =>
    cases hidx : d.pool.idxOf? (.value v) with
    | some i =>
      have hload (pos : Position) : Yields (load ctx pos v) d (instr (.indexed .const i)) d :=
        yields_load.2 (.inr ⟨himm, i, yields_intern.2 (.inl ⟨hidx, rfl⟩), rfl⟩)
      exact .inl ⟨_, d, loadedBy_of_yields (hload {}), hload⟩
    | none =>
      by_cases hfull : d.pool.length < Limit.constants
      · have hload (pos : Position) : Yields (load ctx pos v) d
            (instr (.indexed .const d.pool.length)) { d with pool := d.pool ++ [.value v] } := by
          refine yields_load.2 (.inr ⟨himm, _, yields_intern.2 (.inr ⟨hidx, ?_⟩), rfl⟩)
          exact yields_addConstant.2 ⟨hfull, rfl, rfl⟩
        exact .inl ⟨_, _, loadedBy_of_yields (hload {}), hload⟩
      · right
        intro pos
        have hadd : addConstant ctx pos (.value v) d =
            (.error ⟨.tooManyConstants ctx.owner, pos⟩, d) := by
          rw [addConstant, bind_of_yields (yields_get.2 ⟨rfl, rfl⟩), if_pos (by omega)]
          rfl
        have hintern : intern ctx pos v d = (.error ⟨.tooManyConstants ctx.owner, pos⟩, d) := by
          rw [intern, bind_of_yields (yields_get.2 ⟨rfl, rfl⟩), hidx]
          exact hadd
        rw [load_of_immediate_eq_none himm, map_apply, hintern]
        rfl

/-- An expression whose value is known has the code of that value: one instruction loads it, the
stack keeps its depth, and the pool gets the entry that it gets for the value itself. It is refused
only if the pool is full, as for the value itself, or if it is a call with too many arguments that
is not ruled out by a condition. -/
theorem expr_folded (ctx : Context) (use : Use) (base depth : Nat) (e : Expr) (v : Value)
    (pos : Position) (d : Draft) (huse : use ≠ .test) (h : e.fold? ctx = some v) :
    (∃ f g d', expr ctx use base depth e d = (.ok f, d') ∧
      expr ctx use base depth (.literal pos v) d = (.ok g, d') ∧
      f.instructions = g.instructions ∧ f.landing = g.landing ∧ v.LoadedBy d f d') ∨
    (∃ place, expr ctx use base depth e d = (.error ⟨.tooManyConstants ctx.owner, place⟩, d) ∧
      expr ctx use base depth (.literal pos v) d =
        (.error ⟨.tooManyConstants ctx.owner, pos⟩, d)) ∨
    ∃ place fn args, e.Taken ctx (.call place fn args) ∧ Limit.arguments < args.length ∧
      expr ctx use base depth e d = (.error ⟨.tooManyArguments args.length, place⟩, d) := by
  rw [expr_literal]
  rcases loading_of_fold? huse h with
    ⟨marks, place, hexpr⟩ | ⟨place, fn, args, htaken, hlimit, hexpr⟩
  · rw [hexpr]
    rcases load_outcome ctx v d with ⟨f, d', hloaded, hload⟩ | hload
    · refine .inl ⟨f.behind marks, f.marked pos, d', ?_, ?_, ?_, rfl, ?_⟩
      · rw [map_apply, hload]
        rfl
      · rw [map_apply, hload]
        rfl
      · rw [Fragment.instructions_behind]
        rfl
      · exact hloaded.behind marks
    · refine .inr (.inl ⟨place, ?_, ?_⟩)
      · rw [map_apply, hload]
        rfl
      · rw [map_apply, hload]
        rfl
  · rw [hexpr]
    exact .inr (.inr ⟨place, fn, args, htaken, hlimit, rfl⟩)

/-- A sum behind a comparison, beside a call of an unknown name with too many arguments. -/
def ruledOut : Expr :=
  .cond {} (.call {} (.ident {} (Text.lit "<")) [.literal {} (.int 1), .literal {} (.int 2)])
    (.call {} (.ident {} (Text.lit "+")) [.literal {} (.int 1), .literal {} (.int 2)])
    (some (.call {} (.ident {} (Text.lit "nowhere")) (.replicate 300 (.literal {} .unit))))

theorem ruledOut_folded :
    Use.tail ≠ .test ∧ ruledOut.fold? { options := {}, env := {} } = some (.int 3) ∧
      ∃ f d', expr { options := {}, env := {} } .tail 0 0 ruledOut {} = (.ok f, d') ∧
        (Value.int 3).LoadedBy {} f d' := by
  have hfold : ruledOut.fold? { options := {}, env := {} } = some (.int 3) := by decide +kernel
  have hok : (expr { options := {}, env := {} } .tail 0 0 ruledOut {}).1.isOk = true := by
    decide +kernel
  refine ⟨by decide, hfold, ?_⟩
  rcases expr_folded { options := {}, env := {} } .tail 0 0 ruledOut (.int 3) {} {} (by decide)
      hfold with ⟨f, g, d', hcode, -, -, -, hloaded⟩ | ⟨place, hfull, -⟩ |
      ⟨place, fn, args, -, -, hmany⟩
  · exact ⟨f, d', hcode, hloaded⟩
  · rw [hfull] at hok
    cases hok
  · rw [hmany] at hok
    cases hok

end Lower
end StackLisp
