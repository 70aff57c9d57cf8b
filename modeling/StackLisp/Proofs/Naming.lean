import StackLisp.Lowering
import StackLisp.Proofs.Syntax

/-! What is known at compile time depends only on what the free names of an expression refer to,
and not on the slots of locals. -/
namespace StackLisp

/-- The direct parts of an expression in which the name `n` means what it means outside. -/
def Expr.exposed (n : Bytes) : Expr → List Expr
  | lambda _ name params body => if n ∈ boundBy name params then [] else body
  | letIn _ bindings body =>
    bindings.map Binding.value ++ if n ∈ bindings.map Binding.name then [] else body
  | e => e.children

/-- The name `n` occurs in an expression where nothing in the expression binds it. -/
inductive Expr.Free (n : Bytes) : Expr → Prop where
  | ident {pos} : Free n (.ident pos n)
  | child {e x} : x ∈ e.exposed n → Free n x → Free n e

theorem Expr.free_iff {n : Bytes} {e : Expr} :
    e.Free n ↔ (∃ pos, e = .ident pos n) ∨ ∃ x ∈ e.exposed n, x.Free n := by
  constructor
  · rintro (_ | ⟨hx, hfree⟩)
    · exact .inl ⟨_, rfl⟩
    · exact .inr ⟨_, hx, hfree⟩
  · rintro (⟨pos, rfl⟩ | ⟨x, hx, hfree⟩)
    · exact .ident
    · exact .child hx hfree

/-- What a name refers to, without its slot. -/
def Resolution.unplaced : Resolution → Resolution
  | .slot _ => .slot 0
  | r => r

@[simp] theorem Resolution.unplaced_eq_constant {r : Resolution} {v : Value} :
    r.unplaced = .constant v ↔ r = .constant v := by
  cases r <;> simp [unplaced]

/-- What a name refers to, as far as it decides what is known at compile time. -/
def Resolution.known : Resolution → Resolution
  | .constant v => .constant v
  | .builtin b => .builtin b
  | _ => .unbound

@[simp] theorem Resolution.known_unplaced (r : Resolution) : r.unplaced.known = r.known := by
  cases r <;> rfl

namespace Context

/-- In both contexts the name refers to the same, or to a local. -/
def AgreeOn (c₁ c₂ : Context) (n : Bytes) : Prop :=
  (c₁.resolve n).unplaced = (c₂.resolve n).unplaced

/-- In both contexts the name refers to the same constant or system function, or to neither. -/
def KnowAlike (c₁ c₂ : Context) (n : Bytes) : Prop :=
  (c₁.resolve n).known = (c₂.resolve n).known

/-- The contexts differ in their locals only. -/
structure Alike (c₁ c₂ : Context) : Prop where
  options : c₁.options = c₂.options
  env : c₁.env = c₂.env
  declared : c₁.declared = c₂.declared
  form : c₁.form = c₂.form
  name : c₁.frame.name = c₂.frame.name
  topLevel : c₁.isTopLevel = c₂.isTopLevel

variable {c₁ c₂ : Context} {n : Bytes}

theorem AgreeOn.knowAlike (h : c₁.AgreeOn c₂ n) : c₁.KnowAlike c₂ n := by
  unfold KnowAlike
  rw [← Resolution.known_unplaced, ← Resolution.known_unplaced (c₂.resolve n), h]

theorem Alike.agreeOn (h : c₁.Alike c₂)
    (hslot : (c₁.frame.slot? n).isSome = (c₂.frame.slot? n).isSome) : c₁.AgreeOn c₂ n := by
  unfold AgreeOn resolve
  cases h₁ : c₁.frame.slot? n <;> cases h₂ : c₂.frame.slot? n <;>
    simp only [h₁, h₂, Option.isSome_some, Option.isSome_none, reduceCtorEq] at hslot
  · rw [h.name, h.env, h.options]
  · rfl

theorem Alike.lookup_unplaced (h : c₁.Alike c₂) (hn : c₁.AgreeOn c₂ n) :
    (c₁.lookup n).unplaced = (c₂.lookup n).unplaced := by
  have hlate : c₁.bindsLate n = c₂.bindsLate n := by
    unfold bindsLate
    rw [h.topLevel, h.declared, h.form, h.options]
  unfold AgreeOn at hn
  unfold lookup
  rw [hlate]
  cases h₁ : c₁.resolve n <;> cases h₂ : c₂.resolve n <;>
    simp_all [Resolution.unplaced]

end Context

namespace Expr

variable {c₁ c₂ : Context}

theorem foldAll?_congr {es : List Expr} (h : ∀ e ∈ es, e.fold? c₁ = e.fold? c₂) :
    foldAll? c₁ es = foldAll? c₂ es := by
  induction es with
  | nil => rfl
  | cons e es ih =>
    rw [foldAll?, foldAll?, h e (by simp), ih fun e' he' => h e' (by simp [he'])]

theorem fold?_congr_ident {pos : Position} {n : Bytes} (h : c₁.KnowAlike c₂ n) :
    (ident pos n).fold? c₁ = (ident pos n).fold? c₂ := by
  unfold Context.KnowAlike at h
  rw [fold?, fold?]
  cases h₁ : c₁.resolve n <;> cases h₂ : c₂.resolve n <;> simp_all [Resolution.known]

theorem fold?_congr_call {pos place : Position} {n : Bytes} {args : List Expr}
    (h : c₁.KnowAlike c₂ n) (hargs : foldAll? c₁ args = foldAll? c₂ args) :
    (call pos (ident place n) args).fold? c₁ = (call pos (ident place n) args).fold? c₂ := by
  unfold Context.KnowAlike at h
  rw [fold?, fold?, hargs]
  cases h₁ : c₁.resolve n <;> cases h₂ : c₂.resolve n <;> simp_all [Resolution.known]

/-- The free names decide whether an expression has a known value, and which. -/
theorem fold?_congr {e : Expr} (h : ∀ n, e.Free n → c₁.AgreeOn c₂ n) :
    e.fold? c₁ = e.fold? c₂ := by
  induction e using Expr.induction with
  | literal pos v => rfl
  | ident pos n => exact fold?_congr_ident (h n .ident).knowAlike
  | call pos fn args _ ihargs =>
    have hargs : foldAll? c₁ args = foldAll? c₂ args :=
      foldAll?_congr fun e he => ihargs e he fun n hn => h n (.child (.tail _ he) hn)
    cases fn with
    | ident place n => exact fold?_congr_call (h n (.child (.head _) .ident)).knowAlike hargs
    | _ => rfl
  | cond pos test yes no ihtest ihyes ihno =>
    have htest := ihtest fun n hn => h n (.child (.head _) hn)
    have hyes := ihyes fun n hn => h n (.child (.tail _ (.head _)) hn)
    cases no with
    | none => rw [fold?, fold?, htest, hyes]
    | some e =>
      have hno := ihno e rfl fun n hn => h n (.child (.tail _ (.tail _ (.head _))) hn)
      rw [fold?, fold?, htest, hyes, hno]
  | _ => rfl

end Expr

namespace Lower

variable {c₁ c₂ : Context}

theorem isNegation_congr_ident {pos : Position} {n : Bytes} {argc : Nat}
    (h : c₁.KnowAlike c₂ n) :
    isNegation c₁ (.ident pos n) argc = isNegation c₂ (.ident pos n) argc := by
  unfold Context.KnowAlike at h
  unfold isNegation
  cases h₁ : c₁.resolve n <;> cases h₂ : c₂.resolve n <;> simp_all [Resolution.known]

theorem isNegation_congr {fn : Expr} {argc : Nat} (h : ∀ n, fn.Free n → c₁.AgreeOn c₂ n) :
    isNegation c₁ fn argc = isNegation c₂ fn argc := by
  cases fn with
  | ident pos n => exact isNegation_congr_ident (h n .ident).knowAlike
  | _ => rfl

theorem isNegation_argc {ctx : Context} {fn : Expr} {argc : Nat}
    (h : isNegation ctx fn argc = true) : argc = 1 := by
  unfold isNegation at h
  split at h
  · split at h
    · simp only [Bool.and_eq_true, decide_eq_true_eq] at h
      exact h.1
    · cases h
  · cases h

end Lower
end StackLisp
