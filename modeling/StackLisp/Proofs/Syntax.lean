import StackLisp.Expr

/-! Induction over expressions, with a hypothesis for every direct part. -/
namespace StackLisp.Expr

@[elab_as_elim]
theorem induction {P : Expr → Prop}
    (literal : ∀ pos v, P (literal pos v))
    (ident : ∀ pos name, P (ident pos name))
    (call : ∀ pos fn args, P fn → (∀ e ∈ args, P e) → P (call pos fn args))
    (cond : ∀ pos test yes no, P test → P yes → (∀ e, no = some e → P e) →
      P (cond pos test yes no))
    (lambda : ∀ pos name params body, (∀ e ∈ body, P e) → P (lambda pos name params body))
    (define : ∀ pos name value, P value → P (define pos name value))
    (const : ∀ pos name value, P value → P (const pos name value))
    (letIn : ∀ pos bindings body, (∀ b ∈ bindings, P b.value) → (∀ e ∈ body, P e) →
      P (letIn pos bindings body))
    (block : ∀ pos body, (∀ e ∈ body, P e) → P (block pos body))
    (and : ∀ pos operands, (∀ e ∈ operands, P e) → P (and pos operands))
    (or : ∀ pos operands, (∀ e ∈ operands, P e) → P (or pos operands))
    (apply : ∀ pos fn args, P fn → (∀ e ∈ args, P e) → P (apply pos fn args))
    (e : Expr) : P e := by
  refine @Expr.rec P (fun es => ∀ e ∈ es, P e) (fun no => ∀ e, no = some e → P e)
    (fun bs => ∀ b ∈ bs, P b.value) (fun b => P b.value)
    literal ident call cond lambda define const letIn block and or apply
    ?_ ?_ ?_ ?_ ?_ ?_ ?_ e
  · intro e he
    simp at he
  · intro e es he hes e' hmem
    rcases List.mem_cons.1 hmem with rfl | hmem
    · exact he
    · exact hes e' hmem
  · intro e he
    simp at he
  · intro e he e' heq
    exact Option.some.inj heq ▸ he
  · intro b hb
    simp at hb
  · intro b bs hb hbs b' hmem
    rcases List.mem_cons.1 hmem with rfl | hmem
    · exact hb
    · exact hbs b' hmem
  · intro name pos value hvalue
    exact hvalue

end StackLisp.Expr
