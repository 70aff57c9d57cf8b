import Mathlib.Data.List.Basic
import StackLisp.Proofs.Emitter
import StackLisp.Proofs.Sequences
import StackLisp.Proofs.Syntax

/-! The arguments that system functions are folded on. Where the number of arguments is right, none
that is asked for is missing. -/
namespace StackLisp

namespace Folding

/-- There are as many numbers as values. -/
theorem length_ofValues? {vs : List Value} {numbers : Numbers}
    (h : Numbers.ofValues? vs = some numbers) :
    (∃ ns, numbers = .ints ns ∧ ns.length = vs.length) ∨
      ∃ xs, numbers = .floats xs ∧ xs.length = vs.length := by
  unfold Numbers.ofValues? at h
  split at h
  · next ns hns =>
    cases h
    exact .inl ⟨ns, rfl, List.length_of_mapM hns⟩
  · obtain ⟨xs, hxs, rfl⟩ := Option.map_eq_some_iff.1 h
    exact .inr ⟨xs, rfl, List.length_of_mapM hxs⟩

variable {vs : List Value}

theorem checkedDifference_eq (h : 1 ≤ vs.length) : checkedDifference vs = .ok (difference vs) := by
  unfold checkedDifference difference
  cases hnumbers : Numbers.ofValues? vs with
  | none => rfl
  | some numbers =>
    rcases length_ofValues? hnumbers with ⟨ns, rfl, hlength⟩ | ⟨xs, rfl, hlength⟩
    · obtain ⟨n, rest, rfl⟩ := List.exists_cons_of_length_pos (hlength ▸ h)
      cases rest <;> rfl
    · obtain ⟨x, rest, rfl⟩ := List.exists_cons_of_length_pos (hlength ▸ h)
      cases rest <;> rfl

theorem checkedQuotient_eq (div : Int64 → Int64 → Option Int64)
    (divFloat : Double → Double → Double) (h : 1 ≤ vs.length) :
    checkedQuotient div divFloat vs = .ok (quotient div divFloat vs) := by
  unfold checkedQuotient quotient
  cases hnumbers : Numbers.ofValues? vs with
  | none => rfl
  | some numbers =>
    rcases length_ofValues? hnumbers with ⟨ns, rfl, hlength⟩ | ⟨xs, rfl, hlength⟩
    · obtain ⟨n, rest, rfl⟩ := List.exists_cons_of_length_pos (hlength ▸ h)
      cases rest <;> rfl
    · obtain ⟨x, rest, rfl⟩ := List.exists_cons_of_length_pos (hlength ▸ h)
      cases rest <;> rfl

theorem checkedRemainder_eq (h : vs.length = 2) : checkedRemainder vs = .ok (remainder vs) := by
  unfold checkedRemainder remainder
  cases hnumbers : Numbers.ofValues? vs with
  | none => rfl
  | some numbers =>
    rcases length_ofValues? hnumbers with ⟨ns, rfl, hlength⟩ | ⟨xs, rfl, hlength⟩
    · obtain ⟨a, b, rfl⟩ := List.length_eq_two.1 (hlength.trans h)
      rfl
    · obtain ⟨x, y, rfl⟩ := List.length_eq_two.1 (hlength.trans h)
      rfl

theorem checkedExtremum_eq (better : Ordering → Bool) (h : 1 ≤ vs.length) :
    checkedExtremum better vs = .ok (extremum better vs) := by
  obtain ⟨v, rest, rfl⟩ := List.exists_cons_of_length_pos h
  rw [checkedExtremum, extremum]
  split <;> rfl

theorem checkedUnary_eq (f : List Value → Option Value) (h : vs.length = 1) :
    checkedUnary f vs = .ok (f vs) := by
  obtain ⟨v, rfl⟩ := List.length_eq_one_iff.1 h
  rfl

end Folding

theorem Arity.accepts_iff {a : Arity} {argc : Int} :
    a.accepts argc = true ↔ a.least ≤ argc ∧ ∀ m, a.most = some m → argc ≤ m := by
  rw [accepts, Bool.and_eq_true, decide_eq_true_iff]
  cases a.most <;> simp

theorem Primitive.length_of_exactly {p : Primitive} {argc n : Nat} (ha : p.arity = .exactly n)
    (h : p.arity.accepts argc = true) : argc = n := by
  rw [ha, Arity.accepts_iff] at h
  exact Nat.le_antisymm (Int.ofNat_le.1 (h.2 n rfl)) (Int.ofNat_le.1 h.1)

theorem Primitive.length_of_atLeast {p : Primitive} {argc n : Nat} (ha : p.arity = .atLeast n)
    (h : p.arity.accepts argc = true) : n ≤ argc := by
  rw [ha, Arity.accepts_iff] at h
  exact Int.ofNat_le.1 h.1

open Folding in
/-- A system function is folded alike, whether its arguments are taken apart or asked for one by
one. -/
theorem Primitive.evaluate_eq {p : Primitive} {args : List Value}
    (h : p.arity.accepts args.length = true) : p.evaluate args = .ok (p.fold? args) := by
  cases p with
  | sub => exact checkedDifference_eq (length_of_atLeast rfl h)
  | div | floorDiv => exact checkedQuotient_eq _ _ (length_of_atLeast rfl h)
  | rem => exact checkedRemainder_eq (length_of_exactly rfl h)
  | min | max => exact checkedExtremum_eq _ (length_of_atLeast rfl h)
  | not | identity | floor | ceiling | round | truncate | abs =>
    exact checkedUnary_eq _ (length_of_exactly rfl h)
  | _ => rfl

/-- The standard table has no other system functions than the primitives. -/
theorem BuiltinTable.ofPrimitive_of_find? {n : Bytes} {b : Builtin}
    (h : standard.find? n = some b) : ∃ p, b = .ofPrimitive p := by
  obtain ⟨p, -, hp⟩ := List.mem_map.1 (List.mem_of_find?_eq_some h)
  exact ⟨p, hp.symm⟩

theorem Builtin.primitive?_ofPrimitive (p : Primitive) : (ofPrimitive p).primitive? = some p := by
  cases p <;> rfl

namespace Context

variable {ctx : Context} {n : Bytes} {b : Builtin}

theorem find?_of_resolve_builtin (h : ctx.resolve n = .builtin b) :
    ctx.options.builtins.find? n = some b := by
  unfold resolve at h
  split at h
  · cases h
  · split at h
    · cases h
    · split at h
      · cases h
      · cases h
      · split at h
        · cases h
        · split at h
          · next hfind =>
            cases h
            exact hfind
          · cases h

/-- A name of a system function names a primitive, if the table is the standard one. -/
theorem ofPrimitive_of_resolve (hstandard : ctx.options.builtins = .standard)
    (h : ctx.resolve n = .builtin b) : ∃ p, b = .ofPrimitive p := by
  have hfind := find?_of_resolve_builtin h
  rw [hstandard] at hfind
  exact BuiltinTable.ofPrimitive_of_find? hfind

theorem ofPrimitive_of_lookup (hstandard : ctx.options.builtins = .standard)
    (h : ctx.lookup n = .builtin b) : ∃ p, b = .ofPrimitive p := by
  unfold lookup at h
  split at h
  · split at h <;> cases h
  · exact ofPrimitive_of_resolve hstandard h

theorem mem_of_lookup (h : ctx.lookup n = .builtin b) : b ∈ ctx.options.builtins.entries := by
  unfold lookup at h
  split at h
  · split at h <;> cases h
  · exact List.mem_of_find?_eq_some (find?_of_resolve_builtin h)

end Context

namespace Expr

variable {ctx : Context}

theorem length_foldAll? {es : List Expr} {vs : List Value} (h : foldAll? ctx es = some vs) :
    vs.length = es.length := by
  induction es generalizing vs with
  | nil =>
    cases h
    rfl
  | cons e es ih =>
    rw [foldAll?] at h
    split at h
    · cases h
    · obtain ⟨ws, hws, rfl⟩ := Option.map_eq_some_iff.1 h
      rw [List.length_cons, List.length_cons, ih hws]

theorem evaluateAll_eq {es : List Expr} (h : ∀ e ∈ es, e.evaluate ctx = .ok (e.fold? ctx)) :
    evaluateAll ctx es = .ok (foldAll? ctx es) := by
  induction es with
  | nil => rfl
  | cons e es ih =>
    obtain ⟨he, hes⟩ := List.forall_mem_cons.1 h
    rw [evaluateAll, foldAll?, he, ih hes]
    cases e.fold? ctx with
    | none => rfl
    | some v => rfl

theorem evaluate_eq (hstandard : ctx.options.builtins = .standard) (e : Expr) :
    e.evaluate ctx = .ok (e.fold? ctx) := by
  induction e using Expr.induction with
  | literal pos v => rfl
  | ident pos name =>
    rw [evaluate, fold?]
    cases ctx.resolve name <;> rfl
  | cond pos test yes no ihtest ihyes ihno =>
    cases no with
    | none =>
      rw [evaluate, fold?, ihtest, ihyes]
      rcases test.fold? ctx with _ | v
      · rfl
      · cases v with
        | bool b => cases b <;> rfl
        | _ => rfl
    | some no =>
      rw [evaluate, fold?, ihtest, ihyes, ihno no rfl]
      rcases test.fold? ctx with _ | v
      · rfl
      · cases v with
        | bool b => cases b <;> rfl
        | _ => rfl
  | call pos fn args _ ihargs =>
    cases fn with
    | ident place name =>
      rw [evaluate, fold?]
      cases hresolve : ctx.resolve name with
      | builtin b =>
        obtain ⟨p, rfl⟩ := Context.ofPrimitive_of_resolve hstandard hresolve
        dsimp only
        split
        · next haccepts =>
          rw [Builtin.primitive?_ofPrimitive, evaluateAll_eq ihargs]
          cases hvalues : foldAll? ctx args with
          | none => rfl
          | some vs =>
            have hlength := length_foldAll? hvalues
            exact Primitive.evaluate_eq (by rw [hlength]; exact haccepts)
        · rfl
      | _ => rfl
    | _ => rfl
  | _ => rfl

end Expr

/-- The argument that is computed in place of a call that is cut short. -/
def Lower.Shortcut.index : Shortcut → Nat
  | .operand i | .unary _ i | .step _ i => i

end StackLisp
