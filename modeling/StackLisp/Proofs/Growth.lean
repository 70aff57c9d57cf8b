import StackLisp.Proofs.Adequacy

/-! What compilation leaves behind: drafts only grow, and every piece of code with a value ends with
an instruction. -/
namespace StackLisp

open Lower

/-- The pool and the functions of `d` stay in place in `d'`, and the pool stays within its limit. -/
structure Draft.Extends (d d' : Draft) : Prop where
  pool : d.pool <+: d'.pool
  functions : d.functions <+: d'.functions
  limit : d.pool.length ≤ Limit.constants → d'.pool.length ≤ Limit.constants

namespace Draft.Extends

theorem refl (d : Draft) : d.Extends d := ⟨List.prefix_rfl, List.prefix_rfl, id⟩

theorem trans {d₁ d₂ d₃ : Draft} (h : d₁.Extends d₂) (h' : d₂.Extends d₃) : d₁.Extends d₃ :=
  ⟨h.pool.trans h'.pool, h.functions.trans h'.functions, fun hl => h'.limit (h.limit hl)⟩

/-- The names of slots do not matter here. -/
theorem of_slots {d d' : Draft} {slots : List Bytes} (h : Extends { d with slots := slots } d') :
    d.Extends d' :=
  ⟨h.pool, h.functions, h.limit⟩

end Draft.Extends

/-- A relation between drafts that the steps of compilation keep: interning a value, naming slots
and completing a function, whose body is compiled on a draft of its own. -/
structure Draft.Kept (R : Draft → Draft → Prop) : Prop where
  refl : ∀ d, R d d
  trans : ∀ {d₁ d₂ d₃}, R d₁ d₂ → R d₂ d₃ → R d₁ d₃
  slots : ∀ d slots, R d { d with slots }
  intern : ∀ {ctx pos v d i d'}, Yields (intern ctx pos v) d i d' → R d d'
  function : ∀ {ctx : Context} {pos : Position} {name : Bytes} {params : List Bytes}
    {body : List Expr} {captured : List (Bytes × Nat)} {d b inner},
    params.length + captured.length ≤ Limit.slots →
    Emits (ctx.enter name params (captured.map Prod.fst)) .tail 0
      (params.length + captured.length) (.sequence body)
      { slots := params ++ captured.map Prod.fst, functions := d.functions } b inner →
    R { slots := params ++ captured.map Prod.fst, functions := d.functions } inner →
    d.pool.length < Limit.constants →
    R d { d with
      pool := d.pool ++ [.function inner.functions.length]
      functions := inner.functions ++ [finished ctx pos name params captured.length b inner] }

namespace Draft.Kept

variable {R : Draft → Draft → Prop} {ctx : Context} {pos : Position} {d d' : Draft} {f : Fragment}

theorem load (hR : Kept R) {v : Value} (h : Yields (load ctx pos v) d f d') : R d d' := by
  rcases yields_load.1 h with ⟨o, -, -, rfl⟩ | ⟨-, i, hi, -⟩
  · exact hR.refl _
  · exact hR.intern hi

theorem loadName (hR : Kept R) {name : Bytes} (h : Yields (loadName ctx pos name) d f d') :
    R d d' := by
  rcases yields_loadName h with ⟨s, -, -, rfl⟩ | ⟨v, -, hv⟩ | ⟨-, -, -, i, hi, -⟩
  · exact hR.refl _
  · exact hR.load hv
  · exact hR.intern hi

/-- Each rule of emission is made of such steps. -/
theorem emits (hR : Kept R) {use : Use} {base depth : Nat} {part : Part}
    (h : Emits ctx use base depth part d f d') : R d d' := by
  induction h with
  | literal hy | callFolded _ _ _ _ hy => exact hR.load hy
  | ident hy => exact hR.loadName hy
  | marked _ _ ih | negation _ _ ih | callSelf _ _ _ _ ih | callOperand _ _ _ _ _ _ ih
  | callUnary _ _ _ _ _ _ ih | callStep _ _ _ _ _ _ ih | callPlain _ _ _ _ _ _ ih
  | applySelf _ _ _ _ _ ih | condTrue _ _ ih | condFalse _ _ ih | block _ ih | and _ _ ih
  | or _ _ ih | lambda _ ih | otherwiseSome _ ih | sequenceOne _ ih | spreadOne _ ih
  | operandsOne _ ih | operandAt _ _ ih => exact ih
  | callNamed _ _ _ hi _ ih => exact hR.trans (hR.intern hi) ih
  | callComputed _ _ _ _ ih₁ ih₂ | applyComputed _ _ _ _ _ _ ih₁ ih₂
  | sequenceCons _ _ _ ih₁ ih₂ | argumentsCons _ _ ih₁ ih₂ | spreadCons _ _ _ ih₁ ih₂
  | operandsCons _ _ _ _ _ ih₁ ih₂ | valuesCons _ _ _ ih₁ ih₂ => exact hR.trans ih₁ ih₂
  | condTail _ _ _ _ _ _ ih₁ ih₂ ih₃ | condValue _ _ _ _ _ _ _ _ ih₁ ih₂ ih₃ =>
    exact hR.trans (hR.trans ih₁ ih₂) ih₃
  | letTail _ _ ih₁ ih₂ | letValue _ _ _ ih₁ ih₂ =>
    exact hR.trans ih₁ (hR.trans (hR.slots _ _) ih₂)
  | andEmpty | orEmpty | otherwiseNone | sequenceNil | argumentsNil | operandAtNone | valuesNil =>
    exact hR.refl _
  | function _ _ _ hslots _ hb hpool ih => exact hR.function hslots hb ih hpool

end Draft.Kept

theorem Draft.Extends.kept : Draft.Kept Draft.Extends where
  refl := refl
  trans := trans
  slots d slots := ⟨List.prefix_rfl, List.prefix_rfl, id⟩
  intern h := by
    obtain ⟨-, hf, hpool⟩ := h.interned
    refine ⟨?_, hf ▸ List.prefix_rfl, ?_⟩
    · rcases hpool with hp | ⟨-, hp⟩
      · exact hp ▸ List.prefix_rfl
      · exact hp ▸ List.prefix_append _ _
    · intro hl
      rcases hpool with hp | ⟨hlt, hp⟩
      · exact hp ▸ hl
      · rw [hp, List.length_append]
        exact hlt
  function _ _ ih hpool := by
    refine ⟨List.prefix_append _ _, ih.functions.trans (List.prefix_append _ _), fun _ => ?_⟩
    rw [List.length_append]
    exact hpool

theorem Emits.grows {ctx : Context} {use : Use} {base depth : Nat} {part : Part} {d d' : Draft}
    {f : Fragment} (h : Emits ctx use base depth part d f d') : d.Extends d' :=
  Draft.Extends.kept.emits h

/-- Arguments and the values of a `let` may have no code at all; all other parts have a value. -/
def Part.hasValue : Part → Bool
  | .arguments _ | .values _ => false
  | _ => true

theorem Lower.ends_callBuiltin (b : Builtin) (argc : Nat) : (callBuiltin b argc).Ends := by
  unfold callBuiltin
  split <;> exact Fragment.ends_op _ _

theorem Lower.ends_loadFunction (captured : List (Bytes × Nat)) (i : Nat) :
    (loadFunction captured i).Ends := by
  unfold loadFunction
  split
  · exact Fragment.ends_instr _
  · exact (Fragment.ends_op _ _).append _

theorem Fragment.endsWith_skips {count : Nat} (h : count ≠ 0) :
    ∃ front n, (⟨skips count, false⟩ : Fragment).EndsWith front ⟨.skip, [n]⟩ := by
  fun_induction skips count with
  | case1 => exact absurd rfl h
  | case2 count _ ih =>
    by_cases hr : count - 255 = 0
    · exact ⟨[], min count 255, by simp [EndsWith, hr, skips]⟩
    · obtain ⟨front, n, hn⟩ := ih hr
      exact ⟨.instr ⟨.skip, [min count 255]⟩ :: front, n, by
        simp [EndsWith, show skips (count - 255) = _ from hn]⟩

theorem Fragment.ends_skips {count : Nat} (h : count ≠ 0) :
    (⟨skips count, false⟩ : Fragment).Ends := by
  obtain ⟨front, n, hn⟩ := endsWith_skips h
  exact ⟨front, _, hn⟩

theorem Fragment.Ends.skipping {f : Fragment} (h : f.Ends) (count : Nat) :
    (f.skipping count).Ends := by
  unfold Fragment.skipping
  split
  · exact h
  · next hc => exact (ends_skips hc).append f

namespace Lower

variable {ctx : Context} {pos : Position} {d d' : Draft} {f : Fragment}

theorem Yields.load_ends {v : Value} (h : Yields (load ctx pos v) d f d') : f.Ends := by
  rcases yields_load.1 h with ⟨o, -, rfl, -⟩ | ⟨-, i, -, rfl⟩
  · exact Fragment.ends_op _ _
  · exact Fragment.ends_instr _

theorem Yields.loadName_ends {name : Bytes} (h : Yields (loadName ctx pos name) d f d') :
    f.Ends := by
  rcases yields_loadName h with ⟨s, -, rfl, -⟩ | ⟨v, -, hv⟩ | ⟨-, -, -, i, -, rfl⟩
  · exact Fragment.ends_instr _
  · exact hv.load_ends
  · exact Fragment.ends_instr _

end Lower

namespace Emits

variable {ctx : Context} {use : Use} {base depth : Nat} {part : Part} {d d' : Draft} {f : Fragment}

theorem ends (h : Emits ctx use base depth part d f d') (hv : part.hasValue = true) : f.Ends := by
  induction h with
  | literal hy | callFolded _ _ _ _ hy => exact hy.load_ends
  | ident hy => exact hy.loadName_ends
  | marked _ _ ih => exact (ih rfl).marked _
  | negation _ _ ih | callOperand _ _ _ _ _ _ ih | condTrue _ _ ih | condFalse _ _ ih
  | block _ ih | and _ _ ih | or _ _ ih | lambda _ ih | otherwiseSome _ ih | sequenceOne _ ih
  | spreadOne _ ih | operandsOne _ ih | operandAt _ _ ih => exact ih rfl
  | callSelf | callComputed | callStep | applySelf | applyComputed =>
    exact (Fragment.ends_op _ _).append _
  | callNamed => exact (Fragment.ends_instr _).append _
  | callUnary | callPlain => exact (ends_callBuiltin _ _).append _
  | condTail _ _ _ _ _ _ _ _ ih => exact (ih rfl).append _
  | condValue _ _ _ _ _ _ _ _ _ _ ih => exact ((ih rfl).append _).landed
  | letTail _ _ _ ih => exact (ih rfl).append _
  | letValue _ _ _ _ ih => exact ((ih rfl).append _).skipping _
  | andEmpty | orEmpty | otherwiseNone | sequenceNil | operandAtNone =>
    exact Fragment.ends_op _ _
  | function => exact ends_loadFunction _ _
  | sequenceCons _ _ _ _ ih | spreadCons _ _ _ _ ih => exact (ih rfl).append _
  | operandsCons _ _ _ _ _ _ ih => exact ((ih rfl).append _).landed
  | argumentsNil | argumentsCons | valuesNil | valuesCons => cases hv

end Emits
end StackLisp
