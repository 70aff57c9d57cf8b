import StackLisp.Proofs.Arguments
import StackLisp.Proofs.Evaluation

/-! The shortcuts that the compiler takes are the documented rewritings of calls, if the identity
takes one argument. The compiler does not ask for the number of its arguments. -/
namespace StackLisp

open Evaluation Lower

/-- The identity takes one argument, as in the standard table. -/
def BuiltinTable.IdentityUnary (table : BuiltinTable) : Prop :=
  ∀ b ∈ table.entries, b.primitive? = some .identity → b.arity = .exactly 1

theorem Arity.eq_of_accepts_exactly {n argc : Int} (h : (exactly n).accepts argc = true) :
    argc = n := by
  obtain ⟨hleast, hmost⟩ := accepts_iff.1 h
  exact Int.le_antisymm (hmost n rfl) hleast

/-- A call has as many arguments as its function takes, so that one of the identity has one. -/
theorem Lower.Yields.length_of_identity {ctx : Context} {fn : Expr} {args : List Expr}
    {b : Builtin} {d d' : Draft} (h : Yields (Lower.callee ctx fn) d (.builtin b) d')
    (hunary : ctx.options.builtins.IdentityUnary) (haccepts : b.arity.accepts args.length = true)
    (hidentity : b.primitive? = some .identity) : args.length = 1 := by
  obtain ⟨place, name, -, hname⟩ := h.callee_builtin
  rw [hunary b (Context.mem_of_lookup hname) hidentity] at haccepts
  exact Int.ofNat_inj.1 (Arity.eq_of_accepts_exactly haccepts)

theorem Lower.Yields.length_known_of_identity {ctx : Context} {fn : Expr} {args : List Expr}
    {b : Builtin} {d d' : Draft} (h : Yields (Lower.callee ctx fn) d (.builtin b) d')
    (fold? : Expr → Option Value) (hunary : ctx.options.builtins.IdentityUnary)
    (haccepts : b.arity.accepts args.length = true) (hidentity : b.primitive? = some .identity) :
    (args.map fold?).length = 1 := by
  rw [List.length_map]
  exact h.length_of_identity hunary haccepts hidentity

/-- A table in which the identity takes two arguments. -/
def BuiltinTable.selective : BuiltinTable where
  entries := [⟨Text.lit "id", 14, .exactly 2⟩]
  names_nodup := by decide
  ids_nodup := by decide

/-- The shortcut computes what the call is rewritten to. -/
def Lower.Shortcut.Realizes : Shortcut → Nat × Option Rest → Prop
  | .operand i, (j, none) => i = j
  | .unary c i, (j, some (.call p)) => i = j ∧ c.id.toNat = p.number
  | .step .inc i, (j, some .increment) => i = j
  | .step .dec i, (j, some .decrement) => i = j
  | _, _ => False

/-- A shortcut is taken exactly when the call is rewritten. -/
def Lower.Shortcut.Matches : Option Shortcut → Option (Nat × Option Rest) → Prop
  | none, none => True
  | some s, some r => s.Realizes r
  | _, _ => False

theorem Builtin.toNat_id {b : Builtin} {p : Primitive} (h : b.primitive? = some p) :
    b.id.toNat = p.number := by
  have hnodup : Primitive.all.Nodup := by decide
  obtain ⟨hlt, rfl⟩ := List.getElem?_eq_some_iff.1 h
  exact (hnodup.idxOf_getElem _ hlt).symm

namespace Lower.Shortcut

/-- What the table says about a call on two operands. -/
private def row (p : Primitive) (x y : Option Int) : Option (Nat × Option Rest) :=
  (Rewrite.find? p [x, y]).map fun r => (r.operand, some r.rest)

private theorem sum_row (x y : Option Int) : Matches (sumShortcut x y) (row .add x y) := by
  have hid : (Builtin.ofPrimitive .add).id.toNat = Primitive.number .add := by decide
  simp only [sumShortcut, row, Rewrite.find?, Rewrite.all, List.find?_cons, Rewrite.applies]
  by_cases hy₀ : y = some 0
  · simp [hy₀, Matches, Rewrite.operand, Realizes, hid]
  by_cases hx₀ : x = some 0
  · simp [hx₀, hy₀, Matches, Rewrite.operand, Realizes, hid]
  by_cases hy₁ : y = some 1
  · simp [hx₀, hy₁, Matches, Rewrite.operand, Realizes]
  by_cases hx₁ : x = some 1
  · simp [hy₀, hx₁, hy₁, Matches, Rewrite.operand, Realizes]
  by_cases hy₂ : y = some (-1)
  · simp [hx₀, hx₁, hy₂, Matches, Rewrite.operand, Realizes]
  by_cases hx₂ : x = some (-1)
  · simp [hy₀, hy₁, hx₂, hy₂, Matches, Rewrite.operand, Realizes]
  · simp [hx₀, hy₀, hx₁, hy₁, hx₂, hy₂, Matches]

private theorem difference_row {b : Builtin} (hb : b.primitive? = some .sub) (x y : Option Int) :
    Matches (differenceShortcut b x y) (row .sub x y) := by
  have hid : (Builtin.ofPrimitive .add).id.toNat = Primitive.number .add := by decide
  simp only [differenceShortcut, row, Rewrite.find?, Rewrite.all, List.find?_cons,
    Rewrite.applies]
  by_cases hy₀ : y = some 0
  · simp [hy₀, Matches, Rewrite.operand, Realizes, hid]
  by_cases hx₀ : x = some 0
  · simp [hx₀, hy₀, Matches, Rewrite.operand, Realizes, Builtin.toNat_id hb]
  by_cases hy₁ : y = some 1
  · simp [hx₀, hy₁, Matches, Rewrite.operand, Realizes]
  by_cases hy₂ : y = some (-1)
  · simp [hx₀, hy₂, Matches, Rewrite.operand, Realizes]
  · simp [hx₀, hy₀, hy₁, hy₂, Matches]

private theorem floorDiv_row {b : Builtin} (hb : b.primitive? = some .floorDiv)
    (x y : Option Int) : Matches (floorDivShortcut b x y) (row .floorDiv x y) := by
  have hid : (Builtin.ofPrimitive .floor).id.toNat = Primitive.number .floor := by decide
  simp only [floorDivShortcut, row, Rewrite.find?, Rewrite.all, List.find?_cons, Rewrite.applies]
  by_cases hx₁ : x = some 1
  · simp [hx₁, Matches, Rewrite.operand, Realizes, Builtin.toNat_id hb]
  by_cases hy₁ : y = some 1
  · simp [hx₁, hy₁, Matches, Rewrite.operand, Realizes, hid]
  · simp [hx₁, hy₁, Matches]

/-- The compiler rewrites the calls of the table, as the table says, and no others. -/
theorem matches_rewriting {b : Builtin} {known : List (Option Value)}
    (hone : b.primitive? = some .identity → known.length = 1) :
    Matches (shortcut? b known) (rewriting? b known) := by
  by_cases hid : b.primitive? = some .identity
  · simp [shortcut?, rewriting?, hid, hone hid, Matches, Realizes]
  unfold shortcut? rewriting?
  generalize known.map (fun v => v.bind Value.toInt?) = ints
  cases hp : b.primitive? with
  | none => trivial
  | some p =>
    match ints with
    | [x, y] =>
      cases p with
      | identity => exact absurd hp hid
      | add => exact sum_row x y
      | sub => exact difference_row hp x y
      | floorDiv => exact floorDiv_row hp x y
      | _ => trivial
    | [] | [_] | _ :: _ :: _ :: _ =>
      cases p with
      | identity => exact absurd hp hid
      | _ => trivial

variable {b c : Builtin} {known : List (Option Value)} {i : Nat} {o : Opcode}
  (hone : b.primitive? = some .identity → known.length = 1)
include hone

theorem rewriting_of_none (h : shortcut? b known = none) : rewriting? b known = none := by
  have hm := matches_rewriting hone
  rw [h] at hm
  cases hr : rewriting? b known with
  | none => rfl
  | some r =>
    rw [hr] at hm
    cases hm

theorem rewriting_of_operand (h : shortcut? b known = some (.operand i)) :
    rewriting? b known = some (i, none) := by
  have hm := matches_rewriting hone
  rw [h] at hm
  unfold Matches Realizes at hm
  grind

theorem rewriting_of_unary (h : shortcut? b known = some (.unary c i)) :
    ∃ p, rewriting? b known = some (i, some (.call p)) ∧ c.id.toNat = p.number := by
  have hm := matches_rewriting hone
  rw [h] at hm
  unfold Matches Realizes at hm
  grind

theorem rewriting_of_step (h : shortcut? b known = some (.step o i)) :
    (o = .inc ∧ rewriting? b known = some (i, some .increment)) ∨
      (o = .dec ∧ rewriting? b known = some (i, some .decrement)) := by
  have hm := matches_rewriting hone
  rw [h] at hm
  unfold Matches Realizes at hm
  grind

end Lower.Shortcut
end StackLisp
