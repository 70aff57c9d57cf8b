import StackLisp.Proofs.FirstUses

/-! The free names that are collected for a function are those that occur free in its body. -/
namespace StackLisp.Expr

section Free

variable {n : Bytes} {pos : Position}

attribute [local simp] exposed children

theorem not_free_literal {v : Value} : ¬ (literal pos v).Free n :=
  fun h => by simpa using free_iff.1 h

theorem free_ident {m : Bytes} : (ident pos m).Free n ↔ n = m :=
  free_iff.trans (by simp [eq_comm])

theorem free_call {fn : Expr} {args : List Expr} :
    (call pos fn args).Free n ↔ fn.Free n ∨ ∃ e ∈ args, e.Free n :=
  free_iff.trans (by simp)

theorem free_apply {fn : Expr} {args : List Expr} :
    (apply pos fn args).Free n ↔ fn.Free n ∨ ∃ e ∈ args, e.Free n :=
  free_iff.trans (by simp)

theorem free_cond {test yes : Expr} {no : Option Expr} :
    (cond pos test yes no).Free n ↔
      test.Free n ∨ yes.Free n ∨ ∃ e, no = some e ∧ e.Free n :=
  free_iff.trans (by simp [eq_comm])

theorem free_lambda {name : Bytes} {params : List Bytes} {body : List Expr} :
    (lambda pos name params body).Free n ↔
      n ∉ boundBy name params ∧ ∃ e ∈ body, e.Free n :=
  free_iff.trans (by by_cases h : n ∈ boundBy name params <;> simp [h])

theorem free_define {name : Bytes} {value : Expr} :
    (define pos name value).Free n ↔ value.Free n :=
  free_iff.trans (by simp)

theorem free_const {name : Bytes} {value : Expr} :
    (const pos name value).Free n ↔ value.Free n :=
  free_iff.trans (by simp)

theorem free_block {body : List Expr} : (block pos body).Free n ↔ ∃ e ∈ body, e.Free n :=
  free_iff.trans (by simp)

theorem free_and {es : List Expr} : (and pos es).Free n ↔ ∃ e ∈ es, e.Free n :=
  free_iff.trans (by simp)

theorem free_or {es : List Expr} : (or pos es).Free n ↔ ∃ e ∈ es, e.Free n :=
  free_iff.trans (by simp)

theorem free_letIn {bindings : List (Binding Expr)} {body : List Expr} :
    (letIn pos bindings body).Free n ↔ (∃ b ∈ bindings, b.value.Free n) ∨
      n ∉ bindings.map Binding.name ∧ ∃ e ∈ body, e.Free n := by
  refine free_iff.trans ?_
  by_cases h : n ∈ bindings.map Binding.name
  · rw [exposed, if_pos h]
    grind
  · rw [exposed, if_neg h]
    grind

end Free

theorem mem_body_iff {n : Bytes} {names : List Bytes} {body : List Expr} {x : Expr} :
    x ∈ (if n ∈ names then [] else body) ↔
      ∃ p ∈ body.map (Prod.mk names), n ∉ p.1 ∧ p.2 = x := by
  by_cases h : n ∈ names <;> simp [h]

theorem mem_exposed_iff {n : Bytes} {e x : Expr} :
    x ∈ e.exposed n ↔ ∃ p ∈ e.parts, n ∉ p.1 ∧ p.2 = x := by
  cases e with
  | lambda pos name params body => exact mem_body_iff
  | letIn pos bindings body =>
    have hvalues : x ∈ bindings.map Binding.value ↔
        ∃ p ∈ bindings.map fun b => (([] : List Bytes), b.value), n ∉ p.1 ∧ p.2 = x := by simp
    rw [exposed, List.mem_append, hvalues, mem_body_iff, parts]
    simp only [List.mem_append, or_and_right, exists_or]
  | _ => simp [exposed, parts]

theorem free_iff_exists_freeAt {n : Bytes} {e : Expr} : e.Free n ↔ ∃ place, e.FreeAt n place := by
  constructor
  · intro h
    induction h with
    | ident => exact ⟨[], .here⟩
    | child hx _ ih =>
      obtain ⟨p, hp, hout, rfl⟩ := mem_exposed_iff.1 hx
      obtain ⟨k, hk⟩ := List.mem_iff_getElem?.1 hp
      obtain ⟨place, hplace⟩ := ih
      exact ⟨k :: place, .inside hk hout hplace⟩
  · rintro ⟨place, h⟩
    induction h with
    | here => exact .ident
    | inside hk hout _ ih =>
      exact .child (mem_exposed_iff.2 ⟨_, List.mem_of_getElem? hk, hout, rfl⟩) ih

/-- The free names of a function are used in its body and not bound by it. -/
theorem mem_freeNames {n name : Bytes} {params : List Bytes} {body : List Expr} :
    n ∈ freeNames name params body ↔ n ∉ boundBy name params ∧ ∃ e ∈ body, e.Free n := by
  rw [(byFirstUse_freeNames {} name params body).mem, ← free_iff_exists_freeAt, free_lambda]

end StackLisp.Expr
