import StackLisp.Proofs.Emission
import StackLisp.Proofs.Syntax

/-! The compiler follows the rules: code it returns is code that the rules emit. -/
namespace StackLisp.Lower

open Fragment (op instr jumpSize)

/-- Whatever the compiler returns for the expression, the rules emit. -/
def Adequate (e : Expr) : Prop :=
  ∀ {ctx : Context} {use : Use} {base depth : Nat} {d d' : Draft} {f : Fragment},
    Yields (expr ctx use base depth e) d f d' → Emits ctx use base depth (.expr e) d f d'

variable {ctx : Context} {use : Use} {base depth : Nat} {d d' : Draft} {f : Fragment}

theorem emits_otherwise {no : Option Expr} (h : ∀ e, no = some e → Adequate e)
    (hy : Yields (otherwise ctx use base depth no) d f d') :
    Emits ctx use base depth (.otherwise no) d f d' := by
  cases no with
  | none =>
    rw [otherwise] at hy
    obtain ⟨rfl, rfl⟩ := yields_pure.1 hy
    exact .otherwiseNone
  | some e =>
    rw [otherwise] at hy
    exact .otherwiseSome (h e rfl hy)

theorem emits_sequence {es : List Expr} (h : ∀ e ∈ es, Adequate e)
    (hy : Yields (sequence ctx use base depth es) d f d') :
    Emits ctx use base depth (.sequence es) d f d' := by
  induction es generalizing base d f with
  | nil =>
    rw [sequence] at hy
    obtain ⟨rfl, rfl⟩ := yields_pure.1 hy
    exact .sequenceNil
  | cons e rest ih =>
    have he : Adequate e := h e (by simp)
    cases rest with
    | nil =>
      rw [sequence] at hy
      exact .sequenceOne (he hy)
    | cons e' rest =>
      rw [sequence] at hy
      · obtain ⟨g₁, d₁, h₁, hy⟩ := yields_bind.1 hy
        obtain ⟨g₂, d₂, h₂, hy⟩ := yields_bind.1 hy
        obtain ⟨rfl, rfl⟩ := yields_pure.1 hy
        exact .sequenceCons (by simp) (he h₁) (ih (fun x hx => h x (by simp [hx])) h₂)
      · simp

theorem emits_arguments {es : List Expr} (h : ∀ e ∈ es, Adequate e)
    (hy : Yields (arguments ctx base depth es) d f d') :
    Emits ctx .value base depth (.arguments es) d f d' := by
  induction es generalizing base depth d f with
  | nil =>
    rw [arguments] at hy
    obtain ⟨rfl, rfl⟩ := yields_pure.1 hy
    exact .argumentsNil
  | cons e rest ih =>
    rw [arguments] at hy
    obtain ⟨g₁, d₁, h₁, hy⟩ := yields_bind.1 hy
    obtain ⟨g₂, d₂, h₂, hy⟩ := yields_bind.1 hy
    obtain ⟨rfl, rfl⟩ := yields_pure.1 hy
    exact .argumentsCons (h e (by simp) h₁) (ih (fun x hx => h x (by simp [hx])) h₂)

theorem emits_spread {es : List Expr} (hne : es ≠ []) (h : ∀ e ∈ es, Adequate e)
    (hy : Yields (spread ctx base depth es) d f d') :
    Emits ctx .value base depth (.spread es) d f d' := by
  induction es generalizing base depth d f with
  | nil => exact absurd rfl hne
  | cons e rest ih =>
    have he : Adequate e := h e (by simp)
    cases rest with
    | nil =>
      rw [spread] at hy
      exact .spreadOne (he hy)
    | cons e' rest =>
      rw [spread] at hy
      · obtain ⟨g₁, d₁, h₁, hy⟩ := yields_bind.1 hy
        obtain ⟨g₂, d₂, h₂, hy⟩ := yields_bind.1 hy
        obtain ⟨rfl, rfl⟩ := yields_pure.1 hy
        exact .spreadCons (by simp) (he h₁) (ih (by simp) (fun x hx => h x (by simp [hx])) h₂)
      · simp

theorem emits_operandAt {es : List Expr} {i : Nat} (h : ∀ e ∈ es, Adequate e)
    (hy : Yields (operandAt ctx use base depth i es) d f d') :
    Emits ctx use base depth (.operandAt i es) d f d' := by
  induction es generalizing i with
  | nil =>
    rw [operandAt] at hy
    obtain ⟨rfl, rfl⟩ := yields_pure.1 hy
    exact .operandAtNone rfl
  | cons e rest ih =>
    cases i with
    | zero =>
      rw [operandAt] at hy
      exact .operandAt rfl (h e (by simp) hy)
    | succ i =>
      rw [operandAt] at hy
      cases ih (fun x hx => h x (by simp [hx])) hy with
      | operandAt hi he => exact .operandAt hi he
      | operandAtNone hi => exact .operandAtNone hi

theorem emits_values {bs : List (Binding Expr)} (h : ∀ b ∈ bs, Adequate b.value)
    (hy : Yields (values ctx base depth bs) d f d') :
    Emits ctx .value base depth (.values bs) d f d' := by
  induction bs generalizing base depth d f with
  | nil =>
    rw [values] at hy
    obtain ⟨rfl, rfl⟩ := yields_pure.1 hy
    exact .valuesNil
  | cons b rest ih =>
    obtain ⟨name, pos, e⟩ := b
    rw [values] at hy
    split at hy
    · obtain ⟨_, _, hr, _⟩ := yields_bind.1 hy
      exact absurd hr not_yields_refuse
    · next hd =>
      obtain ⟨g₁, d₁, h₁, hy⟩ := yields_bind.1 hy
      obtain ⟨g₂, d₂, h₂, hy⟩ := yields_bind.1 hy
      obtain ⟨rfl, rfl⟩ := yields_pure.1 hy
      exact .valuesCons (Nat.lt_of_not_le hd) (h _ List.mem_cons_self h₁)
        (ih (fun x hx => h x (by simp [hx])) h₂)

theorem size_withJumps (branch : Opcode) (target : Nat) (fs : List Fragment) :
    (withJumps branch target fs).size = sizeWithJumps fs := by
  induction fs with
  | nil => rfl
  | cons f rest ih =>
    cases rest with
    | nil => rfl
    | cons g rest =>
      rw [withJumps, sizeWithJumps]
      · simp [ih, jumpSize]
      · simp
      · simp

/-- Operands put together; a single one stays as it is. -/
def joined (branch : Opcode) (target : Nat) : List Fragment → Fragment
  | [f] => f
  | fs => (withJumps branch target fs).landed

theorem joined_cons (branch : Opcode) (target : Nat) (f : Fragment) {fs : List Fragment}
    (h : fs ≠ []) :
    joined branch target (f :: fs) =
      (f ++ op branch [target] ++ joined branch target fs).landed := by
  obtain ⟨g, rest, rfl⟩ := List.exists_cons_of_ne_nil h
  cases rest <;> rfl

theorem size_joined (branch : Opcode) (target : Nat) (fs : List Fragment) :
    (joined branch target fs).size = sizeWithJumps fs := by
  match fs with
  | [] => rfl
  | [f] => rfl
  | f :: g :: rest => exact size_withJumps branch target (f :: g :: rest)

theorem operands_ne_nil {es : List Expr} {fs : List Fragment} (hne : es ≠ [])
    (hy : Yields (operands ctx use base depth es) d fs d') : fs ≠ [] := by
  obtain ⟨e, rest, rfl⟩ := List.exists_cons_of_ne_nil hne
  rintro rfl
  cases rest <;> rw [operands] at hy
  · obtain ⟨_, _, _, hp⟩ := yields_bind.1 hy
    simp at hp
  · obtain ⟨_, _, _, hp⟩ := yields_bind.1 hy
    obtain ⟨_, _, _, hp⟩ := yields_bind.1 hp
    simp at hp
  · simp

theorem emits_operands {es : List Expr} (hne : es ≠ []) (h : ∀ e ∈ es, Adequate e)
    {fs : List Fragment} (hy : Yields (operands ctx use base depth es) d fs d')
    (decisive : Bool) (hfit : fs.length ≠ 1 → base + sizeWithJumps fs ≤ Limit.target) :
    Emits ctx use base depth (.operands decisive es) d
      (joined (branchOn decisive) (base + sizeWithJumps fs) fs) d' := by
  induction es generalizing base d fs with
  | nil => exact absurd rfl hne
  | cons e rest ih =>
    have he : Adequate e := h e (by simp)
    cases rest with
    | nil =>
      rw [operands] at hy
      obtain ⟨g, d₁, hg, hy⟩ := yields_bind.1 hy
      obtain ⟨rfl, rfl⟩ := yields_pure.1 hy
      exact .operandsOne (he hg)
    | cons e' rest =>
      rw [operands] at hy
      · obtain ⟨g, d₁, hg, hy⟩ := yields_bind.1 hy
        obtain ⟨gs, d₂, hgs, hy⟩ := yields_bind.1 hy
        obtain ⟨rfl, rfl⟩ := yields_pure.1 hy
        have hsub : ∀ x ∈ e' :: rest, Adequate x := fun x hx => h x (by simp [hx])
        have hgs' : gs ≠ [] := operands_ne_nil (by simp) hgs
        have hsize : sizeWithJumps (g :: gs) = g.size + jumpSize + sizeWithJumps gs := by
          obtain ⟨x, xs, rfl⟩ := List.exists_cons_of_ne_nil hgs'
          rfl
        have hlen : (g :: gs).length ≠ 1 := by
          simpa using hgs'
        have hstop : base + sizeWithJumps (g :: gs) =
            base + g.size + jumpSize + sizeWithJumps gs := by omega
        have hle : base + g.size + jumpSize + sizeWithJumps gs ≤ Limit.target :=
          hstop ▸ hfit hlen
        have hrest := ih (by simp) hsub hgs fun _ => hle
        rw [joined_cons _ _ _ hgs', hstop]
        exact .operandsCons (by simp) (he hg) hrest (by rw [size_joined]) hle
      · simp

theorem emits_joinOperands {es : List Expr} (hne : es ≠ []) (h : ∀ e ∈ es, Adequate e)
    {fs : List Fragment} {d₁ : Draft} {pos : Position} {decisive : Bool}
    (hy : Yields (operands ctx use base depth es) d fs d₁)
    (hj : Yields (joinOperands ctx pos (branchOn decisive) base fs) d₁ f d') :
    Emits ctx use base depth (.operands decisive es) d f d' := by
  match fs, hy, hj with
  | [], hy, _ => exact absurd rfl (operands_ne_nil hne hy)
  | [g], hy, hj =>
    obtain ⟨rfl, rfl⟩ := yields_pure.1 hj
    exact emits_operands hne h hy decisive (by simp)
  | g :: g' :: rest, hy, hj =>
    obtain ⟨_, d₂, ht, hj⟩ := yields_bind.1 hj
    obtain ⟨hle, rfl⟩ := yields_checkTarget.1 ht
    obtain ⟨rfl, rfl⟩ := yields_pure.1 hj
    exact emits_operands hne h hy decisive fun _ => hle

/-- What follows a check that refuses is reached only if the check passes. -/
theorem yields_unless {α : Type} {c : Prop} [Decidable c] {pos : Position} {r : Refusal}
    {k : PUnit → Lower α} {a : α}
    (h : Yields (if c then refuse pos r >>= k else k ⟨⟩) d a d') : ¬ c ∧ Yields (k ⟨⟩) d a d' := by
  split at h
  · obtain ⟨_, _, hr, _⟩ := yields_bind.1 h
    exact absurd hr not_yields_refuse
  · next hc => exact ⟨hc, h⟩

theorem emits_call {pos : Position} {fn : Expr} {args : List Expr} (hfn : Adequate fn)
    (hargs : ∀ e ∈ args, Adequate e) : Adequate (.call pos fn args) := by
  intro ctx use base depth d d' f hy
  rw [expr] at hy
  split at hy
  · next hneg =>
    obtain ⟨rfl, hneg⟩ := hneg
    exact .negation hneg (emits_operandAt hargs hy)
  next hneg =>
  obtain ⟨g, hg, rfl⟩ := yields_map.1 hy
  refine .marked (fun ht => ?_) ?_
  · simpa [strips, ht] using hneg
  obtain ⟨hlen, h₀⟩ := yields_unless hg
  have hlen := Nat.le_of_not_lt hlen
  obtain ⟨c, d₀, hc, h₁⟩ := yields_bind.1 h₀
  obtain ⟨rfl, -⟩ := yields_callee hc
  cases c with
  | self =>
    obtain ⟨hparams, h₂⟩ := yields_unless h₁
    obtain ⟨a, d₁, ha, h₃⟩ := yields_bind.1 h₂
    obtain ⟨rfl, rfl⟩ := yields_pure.1 h₃
    exact .callSelf hlen hc (Decidable.not_not.1 hparams) (emits_arguments hargs ha)
  | named v =>
    obtain ⟨_, d₁, hcheck, h₂⟩ := yields_bind.1 h₁
    obtain rfl := yields_checkArity hcheck
    obtain ⟨i, d₂, hi, h₃⟩ := yields_bind.1 h₂
    obtain ⟨a, d₃, ha, h₄⟩ := yields_bind.1 h₃
    obtain ⟨rfl, rfl⟩ := yields_pure.1 h₄
    exact .callNamed hlen hc hcheck hi (emits_arguments hargs ha)
  | builtin b =>
    obtain ⟨hacc, h₂⟩ := yields_unless h₁
    have hacc : b.arity.accepts args.length = true := by simpa using hacc
    dsimp only at h₂
    split at h₂
    · next v hv => exact .callFolded hlen hc hacc hv h₂
    next hfold =>
    split at h₂
    · next i hi => exact .callOperand hlen hc hacc hfold hi (emits_operandAt hargs h₂)
    · next b' i hi =>
      obtain ⟨a, d₁, ha, h₃⟩ := yields_bind.1 h₂
      obtain ⟨rfl, rfl⟩ := yields_pure.1 h₃
      exact .callUnary hlen hc hacc hfold hi (emits_operandAt hargs ha)
    · next o i hi =>
      obtain ⟨a, d₁, ha, h₃⟩ := yields_bind.1 h₂
      obtain ⟨rfl, rfl⟩ := yields_pure.1 h₃
      exact .callStep hlen hc hacc hfold hi (emits_operandAt hargs ha)
    · next hnone =>
      obtain ⟨a, d₁, ha, h₃⟩ := yields_bind.1 h₂
      obtain ⟨rfl, rfl⟩ := yields_pure.1 h₃
      exact .callPlain hlen hc hacc hfold hnone (emits_arguments hargs ha)
  | computed =>
    obtain ⟨f, d₁, hf, h₂⟩ := yields_bind.1 h₁
    obtain ⟨a, d₂, ha, h₃⟩ := yields_bind.1 h₂
    obtain ⟨rfl, rfl⟩ := yields_pure.1 h₃
    exact .callComputed hlen hc (hfn hf) (emits_arguments hargs ha)

theorem emits_apply {pos : Position} {fn : Expr} {args : List Expr} (hfn : Adequate fn)
    (hargs : ∀ e ∈ args, Adequate e) : Adequate (.apply pos fn args) := by
  intro ctx use base depth d d' f hy
  rw [expr] at hy
  obtain ⟨g, hg, rfl⟩ := yields_map.1 hy
  refine .marked (fun _ => rfl) ?_
  obtain ⟨hne, h₀⟩ := yields_unless hg
  have hne : args ≠ [] := by simpa using hne
  obtain ⟨hlen, h₁⟩ := yields_unless h₀
  have hlen := Nat.le_of_not_lt hlen
  obtain ⟨c, d₀, hc, h₂⟩ := yields_bind.1 h₁
  obtain ⟨rfl, -⟩ := yields_callee hc
  split at h₂
  · obtain ⟨hparams, h₃⟩ := yields_unless h₂
    obtain ⟨a, d₁, ha, h₄⟩ := yields_bind.1 h₃
    obtain ⟨rfl, rfl⟩ := yields_pure.1 h₄
    exact .applySelf hne hlen hc (Nat.le_of_not_lt hparams) (emits_spread hne hargs ha)
  · next hself =>
    obtain ⟨f, d₁, hf, h₃⟩ := yields_bind.1 h₂
    obtain ⟨a, d₂, ha, h₄⟩ := yields_bind.1 h₃
    obtain ⟨rfl, rfl⟩ := yields_pure.1 h₄
    exact .applyComputed hne hlen hc hself (hfn hf) (emits_spread hne hargs ha)

theorem emits_cond {pos : Position} {test yes : Expr} {no : Option Expr} (htest : Adequate test)
    (hyes : Adequate yes) (hno : ∀ e, no = some e → Adequate e) :
    Adequate (.cond pos test yes no) := by
  intro ctx use base depth d d' f hy
  rw [expr] at hy
  obtain ⟨g, hg, rfl⟩ := yields_map.1 hy
  refine .marked (fun _ => rfl) ?_
  split at hg
  · next hfold => exact .condTrue hfold (hyes hg)
  · next hfold => exact .condFalse hfold (emits_otherwise hno hg)
  next htrue hfalse =>
  have hopen : ∀ b, test.fold? ctx ≠ some (.bool b) := by
    intro b
    cases b
    · exact hfalse
    · exact htrue
  obtain ⟨t, d₁, ht, h₁⟩ := yields_bind.1 hg
  obtain ⟨y, d₂, hy', h₂⟩ := yields_bind.1 h₁
  split at h₂
  · next huse =>
    subst huse
    obtain ⟨_, d₃, hcheck, h₃⟩ := yields_bind.1 h₂
    obtain ⟨hle, rfl⟩ := yields_checkTarget.1 hcheck
    obtain ⟨n, d₄, hn, h₄⟩ := yields_bind.1 h₃
    obtain ⟨rfl, rfl⟩ := yields_pure.1 h₄
    exact .condTail hopen (htest ht) (hyes hy') rfl hle (emits_otherwise hno hn)
  · next huse =>
    rw [Use.last_of_ne_tail huse] at hy'
    obtain ⟨_, d₃, hcheck, h₃⟩ := yields_bind.1 h₂
    obtain ⟨hle, rfl⟩ := yields_checkTarget.1 hcheck
    obtain ⟨n, d₄, hn, h₄⟩ := yields_bind.1 h₃
    obtain ⟨_, d₅, hcheck', h₅⟩ := yields_bind.1 h₄
    obtain ⟨hle', rfl⟩ := yields_checkTarget.1 hcheck'
    obtain ⟨rfl, rfl⟩ := yields_pure.1 h₅
    exact .condValue huse hopen (htest ht) (hyes hy') rfl hle (emits_otherwise hno hn) hle'

theorem emits_letIn {pos : Position} {bindings : List (Binding Expr)} {body : List Expr}
    (hbs : ∀ b ∈ bindings, Adequate b.value) (hbody : ∀ e ∈ body, Adequate e) :
    Adequate (.letIn pos bindings body) := by
  intro ctx use base depth d d' f hy
  rw [expr] at hy
  obtain ⟨g, hg, rfl⟩ := yields_map.1 hy
  refine .marked (fun _ => rfl) ?_
  obtain ⟨v, d₁, hv, h₁⟩ := yields_bind.1 hg
  obtain ⟨_, d₂, hm, h₂⟩ := yields_bind.1 h₁
  rw [yields_modify] at hm
  subst hm
  obtain ⟨b, d₃, hb, h₃⟩ := yields_bind.1 h₂
  obtain ⟨rfl, rfl⟩ := yields_pure.1 h₃
  rw [List.length_map] at hb ⊢
  split
  · next huse =>
    subst huse
    exact .letTail (emits_values hbs hv) (emits_sequence hbody hb)
  · next huse =>
    rw [Use.last_of_ne_tail huse] at hb
    exact .letValue huse (emits_values hbs hv) (emits_sequence hbody hb)

/-- Functions are completed behind those of their bodies, and enter the pool of the function
around them. -/
theorem emits_function {pos : Position} {name : Bytes} {params free : List Bytes}
    {body : List Expr} (hbody : ∀ e ∈ body, Adequate e)
    (hy : Yields (function ctx pos name params free fun inner slots =>
      sequence inner .tail 0 slots body) d f d') :
    Emits ctx .value base depth (.function pos name params free body) d f d' := by
  unfold function at hy
  split at hy
  · obtain ⟨_, _, hr, _⟩ := yields_bind.1 hy
    exact absurd hr not_yields_refuse
  next hnone =>
  have hrepeat : firstRepeated? [] params = none := by
    cases hr : firstRepeated? [] params with
    | none => rfl
    | some p => exact absurd hr (hnone p)
  obtain ⟨_, d₁, hcheck, h₁⟩ := yields_bind.1 hy
  obtain ⟨hcap, hslots, hparams, rfl⟩ := yields_checkFunction.1 hcheck
  obtain ⟨⟨b, inner⟩, d₂, hiso, h₂⟩ := yields_bind.1 h₁
  obtain ⟨hb, rfl⟩ := yields_isolated.1 hiso
  obtain ⟨place, d₃, hplace, h₃⟩ := yields_bind.1 h₂
  obtain ⟨rfl, rfl⟩ := yields_complete.1 hplace
  obtain ⟨i, d₄, hi, h₄⟩ := yields_bind.1 h₃
  obtain ⟨hpool, rfl, rfl⟩ := yields_addConstant.1 hi
  rw [List.length_map] at hcap hslots
  simp only [List.length_map] at hb
  have hrule : Emits ctx .value base depth (.function pos name params free body) d _ _ :=
    .function hrepeat rfl hcap hslots hparams (emits_sequence hbody hb) hpool
  split at h₄
  · next hnil =>
    obtain ⟨rfl, rfl⟩ := yields_pure.1 h₄
    simpa [loadFunction, hnil, finished] using hrule
  · next hcons =>
    obtain ⟨rfl, rfl⟩ := yields_pure.1 h₄
    simpa [loadFunction, hcons, finished, captureLoads] using hrule

/-- Code that the compiler returns is code that the rules emit. -/
theorem adequate (e : Expr) : Adequate e := by
  induction e using Expr.induction with
  | literal pos v =>
    intro ctx use base depth d d' f hy
    rw [expr_literal] at hy
    obtain ⟨g, hg, rfl⟩ := yields_map.1 hy
    exact .marked (fun _ => rfl) (.literal hg)
  | ident pos name =>
    intro ctx use base depth d d' f hy
    rw [expr] at hy
    obtain ⟨g, hg, rfl⟩ := yields_map.1 hy
    exact .marked (fun _ => rfl) (.ident hg)
  | call pos fn args hfn hargs => exact emits_call hfn hargs
  | cond pos test yes no htest hyes hno => exact emits_cond htest hyes hno
  | lambda pos name params body hbody =>
    intro ctx use base depth d d' f hy
    rw [expr] at hy
    obtain ⟨g, hg, rfl⟩ := yields_map.1 hy
    exact .marked (fun _ => rfl) (.lambda (emits_function hbody hg))
  | define pos name value _ =>
    intro ctx use base depth d d' f hy
    rw [expr] at hy
    exact absurd hy not_yields_refuse
  | const pos name value _ =>
    intro ctx use base depth d d' f hy
    rw [expr] at hy
    exact absurd hy not_yields_refuse
  | letIn pos bindings body hbs hbody => exact emits_letIn hbs hbody
  | block pos body hbody =>
    intro ctx use base depth d d' f hy
    rw [expr] at hy
    obtain ⟨g, hg, rfl⟩ := yields_map.1 hy
    exact .marked (fun _ => rfl) (.block (emits_sequence hbody hg))
  | and pos es hes =>
    intro ctx use base depth d d' f hy
    rw [expr] at hy
    obtain ⟨g, hg, rfl⟩ := yields_map.1 hy
    refine .marked (fun _ => rfl) ?_
    split at hg
    · next hnil =>
      obtain ⟨rfl, rfl⟩ := yields_pure.1 hg
      rw [List.isEmpty_iff.1 hnil]
      exact .andEmpty
    · next hne =>
      obtain ⟨fs, d₁, hfs, hy⟩ := yields_bind.1 hg
      have hne : es ≠ [] := fun h => hne (List.isEmpty_iff.2 h)
      exact .and hne (emits_joinOperands hne hes hfs hy)
  | or pos es hes =>
    intro ctx use base depth d d' f hy
    rw [expr] at hy
    obtain ⟨g, hg, rfl⟩ := yields_map.1 hy
    refine .marked (fun _ => rfl) ?_
    split at hg
    · next hnil =>
      obtain ⟨rfl, rfl⟩ := yields_pure.1 hg
      rw [List.isEmpty_iff.1 hnil]
      exact .orEmpty
    · next hne =>
      obtain ⟨fs, d₁, hfs, hy⟩ := yields_bind.1 hg
      have hne : es ≠ [] := fun h => hne (List.isEmpty_iff.2 h)
      exact .or hne (emits_joinOperands hne hes hfs hy)
  | apply pos fn args hfn hargs => exact emits_apply hfn hargs

end StackLisp.Lower
