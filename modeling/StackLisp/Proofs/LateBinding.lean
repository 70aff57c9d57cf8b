import StackLisp.Proofs.Batches
import StackLisp.Proofs.Refusals

/-! Late binding. It adds programs to those that are compiled and changes no code. With it a name
that stands for nothing is refused in the code of a form only, never in the body of a function. -/
namespace StackLisp

open Lower (Refuses Lenient Blames Confined)

/-- The name `n` stands at a place of the expression that is outside all function bodies; `inner` is
the context there. -/
inductive Expr.Exposes : Context → Expr → Context → Position → Bytes → Prop where
  | ident {ctx pos n} : Exposes ctx (.ident pos n) ctx pos n
  | callee {ctx pos fn args inner place n} : Exposes ctx fn inner place n →
      Exposes ctx (.call pos fn args) inner place n
  | argument {ctx pos fn args e inner place n} : e ∈ args → Exposes ctx e inner place n →
      Exposes ctx (.call pos fn args) inner place n
  | applied {ctx pos fn args inner place n} : Exposes ctx fn inner place n →
      Exposes ctx (.apply pos fn args) inner place n
  | operand {ctx pos fn args e inner place n} : e ∈ args → Exposes ctx e inner place n →
      Exposes ctx (.apply pos fn args) inner place n
  | test {ctx pos test yes no inner place n} : Exposes ctx test inner place n →
      Exposes ctx (.cond pos test yes no) inner place n
  | yes {ctx pos test yes no inner place n} : Exposes ctx yes inner place n →
      Exposes ctx (.cond pos test yes no) inner place n
  | no {ctx pos test yes no inner place n} : Exposes ctx no inner place n →
      Exposes ctx (.cond pos test yes (some no)) inner place n
  | value {ctx pos bindings body b inner place n} : b ∈ bindings →
      Exposes ctx b.value inner place n → Exposes ctx (.letIn pos bindings body) inner place n
  | body {ctx pos bindings body slot e inner place n} : e ∈ body →
      Exposes (ctx.bind slot (bindings.map Binding.name)) e inner place n →
      Exposes ctx (.letIn pos bindings body) inner place n
  | block {ctx pos body e inner place n} : e ∈ body → Exposes ctx e inner place n →
      Exposes ctx (.block pos body) inner place n
  | and {ctx pos es e inner place n} : e ∈ es → Exposes ctx e inner place n →
      Exposes ctx (.and pos es) inner place n
  | or {ctx pos es e inner place n} : e ∈ es → Exposes ctx e inner place n →
      Exposes ctx (.or pos es) inner place n
  | defined {ctx pos name value inner place n} : Exposes ctx value inner place n →
      Exposes ctx (.define pos name value) inner place n

namespace Expr

variable {ctx ctx' inner : Context} {e e' : Expr} {place : Position} {n : Bytes}
  {r : LocatedRefusal}

theorem Exposes.options (h : e.Exposes ctx inner place n) : inner.options = ctx.options := by
  induction h with
  | ident => rfl
  | body _ _ ih => exact ih
  | _ => assumption

theorem Exposes.outer (h : e.Exposes ctx inner place n) : inner.outer = ctx.outer := by
  induction h with
  | ident => rfl
  | body _ _ ih => exact ih
  | _ => assumption

/-- If the refusal concerns a name, that is a name of the expression outside all function bodies,
and it stands for nothing there. -/
def Accounts (e : Expr) (ctx : Context) (r : LocatedRefusal) : Prop :=
  r.refusal.isNaming = true → ∃ inner n, e.Exposes ctx inner r.pos n ∧
    inner.lookup n = .unbound ∧ r.refusal = inner.blame n

theorem lenient_accounts (e : Expr) (ctx : Context) : Lenient (e.Accounts ctx) := by
  intro r pos hr hnaming
  rw [hr] at hnaming
  cases hnaming

theorem Accounts.widen (h : e'.Accounts ctx' r)
    (hpart : ∀ {inner place n}, e'.Exposes ctx' inner place n → e.Exposes ctx inner place n) :
    e.Accounts ctx r := by
  intro hnaming
  obtain ⟨inner, n, hexposed, hunbound, hr⟩ := h hnaming
  exact ⟨inner, n, hpart hexposed, hunbound, hr⟩

end Expr

/-- With late binding every name stands for something in the body of a function. -/
theorem Context.lookup_ne_unbound {ctx : Context} (hlate : ctx.options.lateBinding = true)
    (hinside : ctx.isTopLevel = false) (n : Bytes) : ctx.lookup n ≠ .unbound := by
  have hbinds : ctx.bindsLate n = true := by
    rw [bindsLate, hinside, hlate, Bool.or_true]
    rfl
  unfold lookup
  split
  · rw [if_pos hbinds]
    intro h
    cases h
  · next hr => exact hr

namespace Lower

theorem Confined.widen {ctx ctx' : Context} {e e' : Expr} (h : Confined (e'.Accounts ctx') ctx' e')
    (hpart : ∀ {inner place n}, e'.Exposes ctx' inner place n → e.Exposes ctx inner place n) :
    Confined (e.Accounts ctx) ctx' e' :=
  fun use base depth => (h use base depth).mono fun _ hr => hr.widen hpart

/-- With late binding an expression in the body of a function is not refused for a name. -/
theorem isNaming_body {ctx : Context} {e : Expr} (h : Confined (e.Accounts ctx) ctx e)
    (hlate : ctx.options.lateBinding = true) (hinside : ctx.isTopLevel = false) :
    Confined (fun r => r.refusal.isNaming = false) ctx e := by
  refine fun use base depth => (h use base depth).mono fun r hr => ?_
  by_cases hnaming : r.refusal.isNaming = true
  · obtain ⟨inner, n, hexposed, hunbound, -⟩ := hr hnaming
    refine absurd hunbound (Context.lookup_ne_unbound ?_ ?_ n)
    · rw [hexposed.options]
      exact hlate
    · rw [Context.isTopLevel, hexposed.outer]
      exact hinside
  · exact Bool.not_eq_true _ ▸ hnaming

theorem Confined.body {ctx ctx' : Context} {e e' : Expr} (h : Confined (e'.Accounts ctx') ctx' e')
    (hlate : ctx'.options.lateBinding = true) (hinside : ctx'.isTopLevel = false) :
    Confined (e.Accounts ctx) ctx' e' :=
  fun use base depth => (isNaming_body h hlate hinside use base depth).mono fun r hr =>
    Expr.lenient_accounts e ctx r.refusal r.pos hr

/-- An expression in the place of a function is refused as a name only if it is one. -/
theorem blames_accounts {ctx : Context} {e fn : Expr}
    (hpart : ∀ {inner place n}, fn.Exposes ctx inner place n → e.Exposes ctx inner place n) :
    Blames (e.Accounts ctx) ctx fn := by
  rintro place n rfl hunbound -
  exact ⟨ctx, n, hpart .ident, hunbound, rfl⟩

theorem confined_accounts (e : Expr) {ctx : Context} (hlate : ctx.options.lateBinding = true) :
    Confined (e.Accounts ctx) ctx e := by
  induction e using Expr.induction generalizing ctx with
  | literal pos v => exact confined_literal (Expr.lenient_accounts _ _) v
  | ident pos n => exact confined_ident (Expr.lenient_accounts _ _) (blames_accounts id)
  | call pos fn args ihfn ihargs =>
    exact confined_call (Expr.lenient_accounts _ _) (blames_accounts .callee)
      ((ihfn hlate).widen .callee) fun e he => (ihargs e he hlate).widen (.argument he)
  | apply pos fn args ihfn ihargs =>
    exact confined_apply (Expr.lenient_accounts _ _) (blames_accounts .applied)
      ((ihfn hlate).widen .applied) fun e he => (ihargs e he hlate).widen (.operand he)
  | cond pos test yes no ihtest ihyes ihno =>
    refine confined_cond (Expr.lenient_accounts _ _) ((ihtest hlate).widen .test)
      ((ihyes hlate).widen .yes) ?_
    rintro e rfl
    exact (ihno e rfl hlate).widen .no
  | letIn pos bindings body ihvalues ihbody =>
    refine confined_letIn (Expr.lenient_accounts _ _)
      (fun b hb => (ihvalues b hb hlate).widen (.value hb)) fun slot e he => ?_
    have hinner : (ctx.bind slot (bindings.map Binding.name)).options.lateBinding = true := hlate
    exact (ihbody e he hinner).widen (.body he)
  | block pos body ih => exact confined_block fun e he => (ih e he hlate).widen (.block he)
  | and pos es ih =>
    exact confined_and (Expr.lenient_accounts _ _) fun e he => (ih e he hlate).widen (.and he)
  | or pos es ih =>
    exact confined_or (Expr.lenient_accounts _ _) fun e he => (ih e he hlate).widen (.or he)
  | lambda pos name params body ih =>
    exact confined_lambda (Expr.lenient_accounts _ _) fun captures e he =>
      Confined.body (ih e he hlate) hlate rfl
  | define pos name value => exact confined_define (Expr.lenient_accounts _ _) name value
  | const pos name value => exact confined_const (Expr.lenient_accounts _ _) name value

end Lower

namespace Compilation

open Lower (refuses_pure refuses_refuse refuses_intern refuses_load refuses_function
  confined_accounts)

variable {ctx : Context}

theorem refuses_define (hlate : ctx.options.lateBinding = true) (pos : Position) (name : Bytes)
    (value : Expr) :
    Refuses ((Expr.define pos name value).Accounts ctx) (define ctx pos name value) := by
  refine (refuses_intern (Expr.lenient_accounts _ _) _).bind fun i => ?_
  split
  · refine Refuses.bind (.map (refuses_function (Expr.lenient_accounts _ _) fun e he => ?_) _)
      fun f => refuses_pure _
    exact Confined.body (confined_accounts e hlate) hlate rfl
  · exact ((confined_accounts _ hlate).widen .defined _ _ _).bind fun f => refuses_pure _

theorem refuses_const {P : LocatedRefusal → Prop} (hP : Lenient P) (pos : Position) (name : Bytes)
    (value : Expr) : Refuses P (const ctx pos name value) := by
  unfold const
  split
  · exact refuses_refuse (hP _ _ rfl)
  · exact (refuses_intern hP _).bind fun i => (refuses_load hP _).bind fun f => refuses_pure _

theorem refuses_formCode (hlate : ctx.options.lateBinding = true) (e : Expr) :
    Refuses (e.Accounts ctx) (formCode ctx e) := by
  unfold formCode
  split
  · exact (refuses_define hlate _ _ _).bind fun f => refuses_pure _
  · exact (refuses_const (Expr.lenient_accounts _ _) _ _ _).bind fun p => refuses_pure _
  · exact ((confined_accounts e hlate) _ _ _).bind fun f => refuses_pure _

theorem accounts_of_form (hlate : ctx.options.lateBinding = true) {e : Expr} {r : LocatedRefusal}
    (h : (form ctx e).1 = .error r) : e.Accounts ctx r := by
  unfold form at h
  split at h
  · next hcode =>
    cases h
    exact refuses_formCode hlate e hcode
  · cases h

variable {options : CompileOptions} {declared : List (Bytes × Nat)} {env : Environment}
  {forms : List Expr} {r : LocatedRefusal}

/-- Forms are refused because one of them is, in the environment behind those before it. -/
theorem form_of_formsFrom {index : Nat}
    (h : (formsFrom options declared env index forms).1 = .error r) :
    ∃ k e env', forms[k]? = some e ∧
      (form { options, env := env', declared, form := index + k } e).1 = .error r := by
  induction forms generalizing env index with
  | nil => cases h
  | cons e rest ih =>
    rw [formsFrom] at h
    rcases hform : form { options, env, declared, form := index } e with ⟨x, events⟩
    rw [hform] at h
    cases x with
    | error r' =>
      cases h
      exact ⟨0, e, env, rfl, by rw [Nat.add_zero, hform]⟩
    | ok p =>
      obtain ⟨image, env₁⟩ := p
      dsimp only at h
      rcases hrest : formsFrom options declared env₁ (index + 1) rest with ⟨y, more⟩
      rw [hrest] at h
      cases y with
      | error r' =>
        cases h
        obtain ⟨k, e', env', hk, herror⟩ := ih (by rw [hrest])
        rw [Nat.add_right_comm] at herror
        exact ⟨k + 1, e', env', hk, herror⟩
      | ok c => cases h

theorem isNaming_of_declarations {index : Nat}
    (h : declarations env declared index forms = .error r) : r.refusal.isNaming = false := by
  induction forms generalizing declared index with
  | nil => cases h
  | cons e rest ih =>
    rw [declarations] at h
    split at h
    · exact ih h
    · split at h
      · cases h
        rfl
      · exact ih h

theorem formsFrom_late {index : Nat} {c : Compilation}
    (h : (formsFrom { options with lateBinding := false } declared env index forms).1 = .ok c) :
    (formsFrom { options with lateBinding := true } declared env index forms).1 = .ok c := by
  induction forms generalizing env index c with
  | nil => exact h
  | cons e rest ih =>
    obtain ⟨img, env₁, c₁, hform, hrest, rfl⟩ := formsFrom_cons.1 h
    have hweaker : Context.Weaker
        { options := { options with lateBinding := false }, env, declared, form := index }
        { options := { options with lateBinding := true }, env, declared, form := index } :=
      ⟨⟨rfl, rfl, rfl⟩, fun _ => .rfl, rfl, rfl, fun _ => rfl, fun _ => id⟩
    refine formsFrom_cons.2 ⟨img, env₁, c₁, ?_, ih hrest, rfl⟩
    exact form_of_served hweaker.toTwin
      (formServed_of_serving Context.Weaker.serving hweaker e) hform

/-- One of the forms is refused, for a name in its code outside all function bodies that stands for
nothing there. -/
def BlamesForm (options : CompileOptions) (forms : List Expr) (r : LocatedRefusal) : Prop :=
  ∃ (k : Nat) (e : Expr) (ctx inner : Context) (n : Bytes), forms[k]? = some e ∧
    ctx.options = options ∧ ctx.form = k ∧ (form ctx e).1 = .error r ∧
    e.Exposes ctx inner r.pos n ∧ inner.isTopLevel = true ∧ inner.lookup n = .unbound ∧
    r.refusal = inner.blame n

theorem blamesForm_of_compile (hlate : options.lateBinding = true)
    (h : compile options env forms = .error r) (hnaming : r.refusal.isNaming = true) :
    BlamesForm options forms r := by
  unfold compile run at h
  split at h
  · next hd =>
    cases h
    rw [isNaming_of_declarations hd] at hnaming
    cases hnaming
  · next declared hd =>
    obtain ⟨k, e, env', hk, hform⟩ := form_of_formsFrom h
    rw [Nat.zero_add] at hform
    obtain ⟨inner, n, hexposed, hunbound, hblame⟩ := accounts_of_form hlate hform hnaming
    refine ⟨k, e, _, inner, n, hk, rfl, rfl, hform, hexposed, ?_, hunbound, hblame⟩
    rw [Context.isTopLevel, hexposed.outer]
    rfl

/-- Late binding keeps the code and the environment of all forms that are compiled without it. With
it a name is refused only where it stands outside all function bodies and means nothing; whatever
stands in the body of a function is never refused for a name. -/
theorem compile_lateBinding (options : CompileOptions) (env : Environment) (forms : List Expr) :
    (∀ c, compile { options with lateBinding := false } env forms = .ok c →
      compile { options with lateBinding := true } env forms = .ok c) ∧
    (∀ r, compile { options with lateBinding := true } env forms = .error r →
      r.refusal.code = .unboundName ∨ r.refusal.code = .forwardReference →
      BlamesForm { options with lateBinding := true } forms r) ∧
    ∀ ctx use base depth e d r d', ctx.options.lateBinding = true → ctx.isTopLevel = false →
      Lower.expr ctx use base depth e d = (.error r, d') →
      r.refusal.code ≠ .unboundName ∧ r.refusal.code ≠ .forwardReference := by
  refine ⟨fun c h => ?_, fun r h hcode => ?_, fun ctx use base depth e d r d' hlate hinside h => ?_⟩
  · obtain ⟨declared, hd, hforms⟩ := compile_eq_ok.1 h
    exact compile_eq_ok.2 ⟨declared, hd, formsFrom_late hforms⟩
  · exact blamesForm_of_compile rfl h (Refusal.isNaming_eq_true.2 hcode)
  · have hnaming := Lower.isNaming_body (confined_accounts e hlate) hlate hinside use base depth h
    exact not_or.1 fun hcode =>
      Bool.eq_false_iff.1 hnaming (Refusal.isNaming_eq_true.2 hcode)

def undefinedNames : List Expr :=
  [.define {} (Text.lit "f") (.lambda {} [] [] [.ident { offset := 20 } (Text.lit "g")]),
    .ident { offset := 24 } (Text.lit "h")]

/-- Of the two undefined names the first stands in the body of a function, and only the second is
refused. -/
theorem compile_lateBinding_undefinedNames :
    ∃ r, compile { lateBinding := true } {} undefinedNames = .error r ∧
      r.refusal.code = .unboundName ∧ r.pos.offset = 24 ∧
      BlamesForm { lateBinding := true } undefinedNames r := by
  have hrefused : ∃ r, compile { lateBinding := true } {} undefinedNames = .error r ∧
      r.refusal.code = .unboundName ∧ r.pos.offset = 24 := ⟨_, rfl, rfl, rfl⟩
  obtain ⟨r, hr, hcode, hplace⟩ := hrefused
  exact ⟨r, hr, hcode, hplace,
    (compile_lateBinding {} {} undefinedNames).2.1 r hr (.inl hcode)⟩

end Compilation
end StackLisp
