import StackLisp.Compilation
import StackLisp.Proofs.Adequacy
import StackLisp.Proofs.Frames
import StackLisp.Proofs.Naming

/-! Code that is compiled in one context is compiled in another, if that context knows all that the
first one knows about the names that are used. -/
namespace StackLisp

open Fragment (op instr)

/-- What a name refers to, as far as it decides how the name is loaded. -/
def Resolution.loaded : Resolution → Resolution
  | .builtin _ => .global
  | r => r

/-- Only system functions are loaded as something else than they are. -/
theorem Resolution.eq_of_loaded {r₁ r₂ : Resolution} (h : r₂.loaded = r₁.loaded)
    (hglobal : r₁.loaded ≠ .global) : r₂ = r₁ := by
  cases r₁ <;> cases r₂ <;> simp_all [loaded]

namespace Context

/-- What `c₁` knows about the name at compile time, and what the name refers to in `c₁` if it is
bound there, is the same in `c₂`. -/
structure Serves (c₁ c₂ : Context) (n : Bytes) : Prop where
  known : c₁.KnowAlike c₂ n
  bound : c₁.lookup n ≠ .unbound → c₂.lookup n = c₁.lookup n

/-- The name has the same value at compile time in both contexts, or none, and it is loaded in `c₂`
as it is loaded in `c₁`. It may be called differently. -/
structure Loads (c₁ c₂ : Context) (n : Bytes) : Prop where
  folded : ∀ v, c₁.resolve n = .constant v ↔ c₂.resolve n = .constant v
  bound : c₁.lookup n ≠ .unbound → (c₂.lookup n).loaded = (c₁.lookup n).loaded

/-- The contexts have the same locals and the same environment. -/
structure Twin (c₁ c₂ : Context) : Prop where
  frame : c₁.frame = c₂.frame
  env : c₁.env = c₂.env
  filename : c₁.options.filename = c₂.options.filename

variable {c₁ c₂ : Context} {n : Bytes}

theorem Serves.loads (h : c₁.Serves c₂ n) : c₁.Loads c₂ n := by
  refine ⟨fun v => ?_, fun hbound => by rw [h.bound hbound]⟩
  have hknown := h.known
  unfold KnowAlike at hknown
  cases h₁ : c₁.resolve n <;> cases h₂ : c₂.resolve n <;> simp_all [Resolution.known]

theorem Serves.of_resolve (h : c₁.resolve n = c₂.resolve n)
    (hlate : c₁.resolve n = .unbound → c₁.bindsLate n = true → c₂.bindsLate n = true) :
    c₁.Serves c₂ n := by
  refine ⟨by rw [KnowAlike, h], fun hbound => ?_⟩
  unfold lookup at hbound ⊢
  rw [← h]
  cases hr : c₁.resolve n with
  | unbound =>
    cases hl : c₁.bindsLate n with
    | true => rw [hlate hr hl]
    | false => simp [hr, hl] at hbound
  | _ => rfl

/-- Nothing beyond the frame matters for a name that the frame knows. -/
theorem Serves.of_frame (h : c₁.frame = c₂.frame)
    (hn : (c₁.frame.slot? n).isSome ∨ c₁.frame.name ≠ [] ∧ c₁.frame.name = n) :
    c₁.Serves c₂ n := by
  have hresolve : c₁.resolve n = c₂.resolve n ∧ c₁.resolve n ≠ .unbound := by
    unfold resolve
    rw [← h]
    cases hs : c₁.frame.slot? n with
    | some s => exact ⟨rfl, nofun⟩
    | none =>
      have hname : c₁.frame.name ≠ [] ∧ c₁.frame.name = n := by simpa [hs] using hn
      rw [if_pos hname]
      exact ⟨(if_pos hname).symm, nofun⟩
  exact .of_resolve hresolve.1 fun hu => absurd hu hresolve.2

namespace Twin

theorem bind (h : c₁.Twin c₂) (slot : Nat) (names : List Bytes) :
    (c₁.bind slot names).Twin (c₂.bind slot names) :=
  ⟨congrArg (Frame.bind · slot names) h.frame, h.env, h.filename⟩

theorem enter (h : c₁.Twin c₂) (name : Bytes) (params captures : List Bytes) :
    (c₁.enter name params captures).Twin (c₂.enter name params captures) :=
  ⟨rfl, h.env, h.filename⟩

end Twin
end Context

/-- The second context serves the function of a call, if the function is given by a name. -/
def Context.ServesCallee (c₁ c₂ : Context) (fn : Expr) : Prop :=
  ∀ place n, fn = .ident place n → c₁.Serves c₂ n

/-- Wherever a name is used in the expression, the second context loads it as the first, and serves
it if it is called. -/
inductive Expr.Served : Context → Context → Expr → Prop where
  | literal {c₁ c₂ pos v} : Served c₁ c₂ (.literal pos v)
  | ident {c₁ c₂ pos n} : c₁.Loads c₂ n → Served c₁ c₂ (.ident pos n)
  | call {c₁ c₂ pos fn args} : c₁.ServesCallee c₂ fn → Served c₁ c₂ fn →
      (∀ e ∈ args, Served c₁ c₂ e) → Served c₁ c₂ (.call pos fn args)
  | apply {c₁ c₂ pos fn args} : Served c₁ c₂ fn → (∀ e ∈ args, Served c₁ c₂ e) →
      Served c₁ c₂ (.apply pos fn args)
  | cond {c₁ c₂ pos test yes no} : Served c₁ c₂ test → Served c₁ c₂ yes →
      (∀ e, no = some e → Served c₁ c₂ e) → Served c₁ c₂ (.cond pos test yes no)
  | lambda {c₁ c₂ pos name params body} :
      (∀ e ∈ body, Served
        (c₁.enter name params
          ((Lower.capturedBy c₁ name (freeNames name params body)).map Prod.fst))
        (c₂.enter name params
          ((Lower.capturedBy c₁ name (freeNames name params body)).map Prod.fst)) e) →
      Served c₁ c₂ (.lambda pos name params body)
  | define {c₁ c₂ pos name value} : Served c₁ c₂ (.define pos name value)
  | const {c₁ c₂ pos name value} : Served c₁ c₂ (.const pos name value)
  | letIn {c₁ c₂ pos bindings body} : (∀ b ∈ bindings, Served c₁ c₂ b.value) →
      (∀ slot, ∀ e ∈ body, Served (c₁.bind slot (bindings.map Binding.name))
        (c₂.bind slot (bindings.map Binding.name)) e) →
      Served c₁ c₂ (.letIn pos bindings body)
  | block {c₁ c₂ pos body} : (∀ e ∈ body, Served c₁ c₂ e) → Served c₁ c₂ (.block pos body)
  | and {c₁ c₂ pos es} : (∀ e ∈ es, Served c₁ c₂ e) → Served c₁ c₂ (.and pos es)
  | or {c₁ c₂ pos es} : (∀ e ∈ es, Served c₁ c₂ e) → Served c₁ c₂ (.or pos es)

theorem Context.ServesCallee.isNegation {c₁ c₂ : Context} {fn : Expr}
    (h : c₁.ServesCallee c₂ fn) (argc : Nat) :
    Lower.isNegation c₁ fn argc = Lower.isNegation c₂ fn argc := by
  cases fn with
  | ident place n => exact Lower.isNegation_congr_ident (h place n rfl).known
  | _ => rfl

namespace Expr.Served

variable {c₁ c₂ : Context} {e : Expr}

/-- The same values are known at compile time. -/
theorem fold? (h : e.Served c₁ c₂) : e.fold? c₁ = e.fold? c₂ := by
  induction h with
  | @ident c₁ c₂ pos n hn =>
    have hfolded := hn.folded
    rw [Expr.fold?, Expr.fold?]
    cases h₁ : c₁.resolve n <;> cases h₂ : c₂.resolve n <;> simp_all
  | @call _ _ pos fn args hcallee _ _ _ ih =>
    cases fn with
    | ident place n => exact fold?_congr_call (hcallee place n rfl).known (foldAll?_congr ih)
    | _ => rfl
  | @cond _ _ pos test yes no _ _ _ ihtest ihyes ihno =>
    cases no with
    | none => rw [Expr.fold?, Expr.fold?, ihtest, ihyes]
    | some no => rw [Expr.fold?, Expr.fold?, ihtest, ihyes, ihno no rfl]
  | _ => rfl

/-- Conditions are negated alike. -/
theorem negated (h : e.Served c₁ c₂) : Lower.negated c₁ e = Lower.negated c₂ e := by
  induction h with
  | @call _ _ pos fn args hcallee _ _ _ ih =>
    rw [Lower.negated, Lower.negated, hcallee.isNegation]
    cases args with
    | nil => rfl
    | cons x args => rw [Lower.negatedFirst, Lower.negatedFirst, ih x List.mem_cons_self]
  | _ => rfl

end Expr.Served

/-- A relation of contexts that is kept further inside, where the second context serves the first
in all names. -/
structure Context.Serving (R : Context → Context → Prop) : Prop where
  bind : ∀ {c₁ c₂}, R c₁ c₂ → ∀ slot names, R (c₁.bind slot names) (c₂.bind slot names)
  enter : ∀ {c₁ c₂}, R c₁ c₂ → ∀ name params captures,
    R (c₁.enter name params captures) (c₂.enter name params captures)
  serves : ∀ {c₁ c₂}, R c₁ c₂ → ∀ n, c₁.Serves c₂ n

theorem Context.Serving.served {R : Context → Context → Prop} (hR : Serving R) {c₁ c₂ : Context}
    (h : R c₁ c₂) (e : Expr) : e.Served c₁ c₂ := by
  induction e using Expr.induction generalizing c₁ c₂ with
  | literal => exact .literal
  | ident pos n => exact .ident (hR.serves h n).loads
  | call pos fn args ihfn ihargs =>
    exact .call (fun _ n _ => hR.serves h n) (ihfn h) fun e he => ihargs e he h
  | cond pos test yes no ihtest ihyes ihno =>
    exact .cond (ihtest h) (ihyes h) fun e he => ihno e he h
  | lambda pos name params body ih => exact .lambda fun e he => ih e he (hR.enter h _ _ _)
  | define => exact .define
  | const => exact .const
  | letIn pos bindings body ihvalues ihbody =>
    exact .letIn (fun b hb => ihvalues b hb h) fun slot e he => ihbody e he (hR.bind h _ _)
  | block pos body ih => exact .block fun e he => ih e he h
  | and pos es ih => exact .and fun e he => ih e he h
  | or pos es ih => exact .or fun e he => ih e he h
  | apply pos fn args ihfn ihargs => exact .apply (ihfn h) fun e he => ihargs e he h

namespace Lower

/-- Whenever `m` succeeds, `m'` succeeds with the same result. -/
def Covers {α : Type} (m m' : Lower α) : Prop :=
  ∀ ⦃d a d'⦄, Yields m d a d' → Yields m' d a d'

section
variable {α β : Type}

theorem covers_refl (m : Lower α) : Covers m m := fun _ _ _ h => h

theorem covers_refuse {pos : Position} {r : Refusal} {m : Lower α} : Covers (refuse pos r) m :=
  fun _ _ _ h => absurd h not_yields_refuse

theorem Covers.bind {m m' : Lower α} {k k' : α → Lower β} (hm : Covers m m')
    (hk : ∀ a, Covers (k a) (k' a)) : Covers (m >>= k) (m' >>= k') := by
  intro d b d' h
  obtain ⟨a, d₁, h₁, h₂⟩ := yields_bind.1 h
  exact yields_bind.2 ⟨a, d₁, hm h₁, hk a h₂⟩

theorem Covers.map {m m' : Lower α} (g : α → β) (hm : Covers m m') :
    Covers (g <$> m) (g <$> m') := by
  intro d b d' h
  obtain ⟨a, h₁, h₂⟩ := yields_map.1 h
  exact yields_map.2 ⟨a, hm h₁, h₂⟩

/-- Two checks of the same condition may refuse for different reasons. -/
theorem Covers.unless {c : Prop} [Decidable c] {pos pos' : Position} {r r' : Refusal}
    {k k' : PUnit → Lower α} (h : Covers (k ⟨⟩) (k' ⟨⟩)) :
    Covers (if c then refuse pos r >>= k else k ⟨⟩)
      (if c then refuse pos' r' >>= k' else k' ⟨⟩) := by
  intro d a d' hy
  obtain ⟨hc, hk⟩ := yields_unless hy
  rw [if_neg hc]
  exact h hk

end

variable {c₁ c₂ : Context} {pos : Position}

/-- The context matters only to the reason of a refusal. -/
theorem covers_addConstant (c : Constant) :
    Covers (addConstant c₁ pos c) (addConstant c₂ pos c) :=
  fun _ _ _ h => yields_addConstant.2 (yields_addConstant.1 h)

theorem covers_intern (v : Value) : Covers (intern c₁ pos v) (intern c₂ pos v) := by
  intro d i d' h
  rcases yields_intern.1 h with hold | ⟨hnone, hadd⟩
  · exact yields_intern.2 (.inl hold)
  · exact yields_intern.2 (.inr ⟨hnone, covers_addConstant _ hadd⟩)

theorem covers_load (v : Value) : Covers (load c₁ pos v) (load c₂ pos v) := by
  intro d f d' h
  rcases yields_load.1 h with himm | ⟨hnone, i, hi, hf⟩
  · exact yields_load.2 (.inl himm)
  · exact yields_load.2 (.inr ⟨hnone, i, covers_intern v hi, hf⟩)

theorem covers_checkTarget (target : Nat) :
    Covers (checkTarget c₁ pos target) (checkTarget c₂ pos target) :=
  fun _ _ _ h => yields_checkTarget.2 (yields_checkTarget.1 h)

theorem covers_checkArity (henv : c₁.env = c₂.env) (v : Value) (argc : Nat) :
    Covers (checkArity c₁ pos v argc) (checkArity c₂ pos v argc) := by
  unfold checkArity
  rw [henv]
  exact covers_refl _

theorem covers_resolve {n : Bytes} (h : c₁.Serves c₂ n) :
    Covers (resolve c₁ pos n) (resolve c₂ pos n) := by
  intro d r d' hy
  obtain ⟨hr, hne, hd⟩ := yields_resolve.1 hy
  have hbound : c₂.lookup n = c₁.lookup n := h.bound (hr ▸ hne)
  exact yields_resolve.2 ⟨hbound.trans hr, hne, hd⟩

theorem covers_loadName {n : Bytes} (h : c₁.Loads c₂ n) :
    Covers (loadName c₁ pos n) (loadName c₂ pos n) := by
  intro d f d' hy
  rcases yields_loadName hy with ⟨s, hs, hf, hd⟩ | ⟨v, hv, hload⟩ | ⟨hslot, hconst, hne, i, hi, hf⟩
  · have hloaded := h.bound (by rw [hs]; nofun)
    have hlookup : c₂.lookup n = .slot s := by
      rw [← hs]
      exact Resolution.eq_of_loaded hloaded (by rw [hs]; nofun)
    refine yields_bind.2 ⟨.slot s, d, yields_resolve.2 ⟨hlookup, nofun, rfl⟩, ?_⟩
    exact yields_pure.2 ⟨hf.symm, hd.symm⟩
  · have hloaded := h.bound (by rw [hv]; nofun)
    have hlookup : c₂.lookup n = .constant v := by
      rw [← hv]
      exact Resolution.eq_of_loaded hloaded (by rw [hv]; nofun)
    refine yields_bind.2 ⟨.constant v, d, yields_resolve.2 ⟨hlookup, nofun, rfl⟩, ?_⟩
    exact covers_load v hload
  · have hloaded := h.bound hne
    have hname : Yields (do
        let i ← intern c₂ pos (.name n)
        pure (instr (.indexed .getDef i))) d f d' :=
      yields_bind.2 ⟨i, d', covers_intern _ hi, yields_pure.2 ⟨hf.symm, rfl⟩⟩
    cases h₂ : c₂.lookup n with
    | unbound | slot | constant =>
      rw [h₂] at hloaded
      cases h₁ : c₁.lookup n <;> simp_all [Resolution.loaded]
    | self | builtin | global =>
      exact yields_bind.2 ⟨_, d, yields_resolve.2 ⟨h₂, nofun, rfl⟩, hname⟩

theorem covers_callee {fn : Expr} (h : c₁.ServesCallee c₂ fn) :
    Covers (callee c₁ fn) (callee c₂ fn) := by
  cases fn with
  | ident place n => exact (covers_resolve (h place n rfl)).bind fun r => covers_refl _
  | _ => exact covers_refl _

/-- A name that is loaded alike is the name of the function itself in both contexts or in
neither. -/
theorem covers_calleeSelf {α : Type} {fn : Expr} {k k' : Callee → Lower α} (h : fn.Served c₁ c₂)
    (hself : Covers (k .self) (k' .self))
    (hother : ∀ c c', c ≠ .self → c' ≠ .self → Covers (k c) (k' c')) :
    Covers (callee c₁ fn >>= k) (callee c₂ fn >>= k') := by
  intro d a d' hy
  obtain ⟨c, d₁, hc, hy⟩ := yields_bind.1 hy
  have hmore : ∃ c', Yields (callee c₂ fn) d c' d₁ ∧ (c = .self ↔ c' = .self) := by
    cases h with
    | @ident _ _ place n hn =>
      obtain ⟨hne, rfl, rfl⟩ := yields_callee_ident.1 hc
      have hloaded := hn.bound hne
      refine ⟨_, yields_callee_ident.2 ⟨?_, rfl, rfl⟩, ?_⟩
      · intro hu
        rw [hu] at hloaded
        cases h₁ : c₁.lookup n <;> simp_all [Resolution.loaded]
      · cases h₁ : c₁.lookup n <;> cases h₂ : c₂.lookup n <;>
          simp_all [Resolution.loaded, Callee.ofResolution]
    | _ => exact ⟨c, hc, Iff.rfl⟩
  obtain ⟨c', hc', hiff⟩ := hmore
  refine yields_bind.2 ⟨c', d₁, hc', ?_⟩
  by_cases hs : c = .self
  · have hs' := hiff.1 hs
    subst hs hs'
    exact hself hy
  · exact hother c c' hs (fun hs' => hs (hiff.2 hs')) hy

/-- In the second context the expression has the code that it has in the first. -/
def Ported (c₁ c₂ : Context) (e : Expr) : Prop :=
  ∀ use base depth, Covers (expr c₁ use base depth e) (expr c₂ use base depth e)

theorem covers_otherwise {no : Option Expr} (h : ∀ e, no = some e → Ported c₁ c₂ e) (use : Use)
    (base depth : Nat) : Covers (otherwise c₁ use base depth no) (otherwise c₂ use base depth no) := by
  cases no with
  | none =>
    rw [otherwise, otherwise]
    exact covers_refl _
  | some e =>
    rw [otherwise, otherwise]
    exact h e rfl use base depth

theorem covers_sequence {es : List Expr} (h : ∀ e ∈ es, Ported c₁ c₂ e) (use : Use)
    (base depth : Nat) : Covers (sequence c₁ use base depth es) (sequence c₂ use base depth es) := by
  induction es generalizing base with
  | nil =>
    rw [sequence, sequence]
    exact covers_refl _
  | cons e rest ih =>
    have he : Ported c₁ c₂ e := h e List.mem_cons_self
    have hrest := ih fun x hx => h x (List.mem_cons_of_mem _ hx)
    cases rest with
    | nil =>
      rw [sequence, sequence]
      exact he use base depth
    | cons e' rest =>
      rw [sequence, sequence]
      · exact (he .value base depth).bind fun f => (hrest _).bind fun g => covers_refl _
      · simp
      · simp

theorem covers_arguments {es : List Expr} (h : ∀ e ∈ es, Ported c₁ c₂ e) (base depth : Nat) :
    Covers (arguments c₁ base depth es) (arguments c₂ base depth es) := by
  induction es generalizing base depth with
  | nil =>
    rw [arguments, arguments]
    exact covers_refl _
  | cons e rest ih =>
    have he : Ported c₁ c₂ e := h e List.mem_cons_self
    have hrest := ih fun x hx => h x (List.mem_cons_of_mem _ hx)
    rw [arguments, arguments]
    exact (he .value base depth).bind fun f => (hrest _ _).bind fun g => covers_refl _

theorem covers_spread {es : List Expr} (h : ∀ e ∈ es, Ported c₁ c₂ e) (base depth : Nat) :
    Covers (spread c₁ base depth es) (spread c₂ base depth es) := by
  induction es generalizing base depth with
  | nil =>
    rw [spread, spread]
    exact covers_refl _
  | cons e rest ih =>
    have he : Ported c₁ c₂ e := h e List.mem_cons_self
    have hrest := ih fun x hx => h x (List.mem_cons_of_mem _ hx)
    cases rest with
    | nil =>
      rw [spread, spread]
      exact he .value base depth
    | cons e' rest =>
      rw [spread, spread]
      · exact (he .value base depth).bind fun f => (hrest _ _).bind fun g => covers_refl _
      · simp
      · simp

theorem covers_operands {es : List Expr} (h : ∀ e ∈ es, Ported c₁ c₂ e) (use : Use)
    (base depth : Nat) : Covers (operands c₁ use base depth es) (operands c₂ use base depth es) := by
  induction es generalizing base with
  | nil =>
    rw [operands, operands]
    exact covers_refl _
  | cons e rest ih =>
    have he : Ported c₁ c₂ e := h e List.mem_cons_self
    have hrest := ih fun x hx => h x (List.mem_cons_of_mem _ hx)
    cases rest with
    | nil =>
      rw [operands, operands]
      exact (he use base depth).bind fun f => covers_refl _
    | cons e' rest =>
      rw [operands, operands]
      · exact (he .value base depth).bind fun f => (hrest _).bind fun fs => covers_refl _
      · simp
      · simp

theorem covers_joinOperands (branch : Opcode) (base : Nat) (fs : List Fragment) :
    Covers (joinOperands c₁ pos branch base fs) (joinOperands c₂ pos branch base fs) := by
  cases fs with
  | nil => exact covers_refl _
  | cons f rest =>
    cases rest with
    | nil => exact covers_refl _
    | cons g rest => exact (covers_checkTarget _).bind fun _ => covers_refl _

theorem covers_operandAt {es : List Expr} (h : ∀ e ∈ es, Ported c₁ c₂ e) (use : Use)
    (base depth i : Nat) :
    Covers (operandAt c₁ use base depth i es) (operandAt c₂ use base depth i es) := by
  induction es generalizing i with
  | nil =>
    rw [operandAt, operandAt]
    exact covers_refl _
  | cons e rest ih =>
    cases i with
    | zero =>
      rw [operandAt, operandAt]
      exact h e List.mem_cons_self use base depth
    | succ i =>
      rw [operandAt, operandAt]
      exact ih (fun x hx => h x (List.mem_cons_of_mem _ hx)) i

theorem covers_values {bs : List (Binding Expr)} (h : ∀ b ∈ bs, Ported c₁ c₂ b.value)
    (base depth : Nat) : Covers (values c₁ base depth bs) (values c₂ base depth bs) := by
  induction bs generalizing base depth with
  | nil =>
    rw [values, values]
    exact covers_refl _
  | cons b rest ih =>
    obtain ⟨name, place, e⟩ := b
    have he : Ported c₁ c₂ e := h ⟨name, place, e⟩ List.mem_cons_self
    have hrest := ih fun x hx => h x (List.mem_cons_of_mem _ hx)
    rw [values, values]
    exact .unless ((he .value base depth).bind fun f => (hrest _ _).bind fun g => covers_refl _)

/-- A function has the code that its body has; what it captures depends on the frame alone. -/
theorem covers_function (htwin : c₁.Twin c₂) {name : Bytes} {params free : List Bytes}
    {body : List Expr}
    (h : ∀ e ∈ body, Ported
      (c₁.enter name params ((capturedBy c₁ name free).map Prod.fst))
      (c₂.enter name params ((capturedBy c₁ name free).map Prod.fst)) e) :
    Covers (function c₁ pos name params free fun inner slots => sequence inner .tail 0 slots body)
      (function c₂ pos name params free fun inner slots =>
        sequence inner .tail 0 slots body) := by
  have hcaptured : capturedBy c₂ name free = capturedBy c₁ name free := by
    unfold capturedBy
    rw [htwin.frame]
  unfold function
  rw [hcaptured, ← htwin.filename]
  split
  · intro d f d' hy
    obtain ⟨_, _, hr, _⟩ := yields_bind.1 hy
    exact absurd hr not_yields_refuse
  · refine (covers_refl _).bind fun _ => Covers.bind ?_ fun r =>
      (covers_refl _).bind fun place => (covers_addConstant _).bind fun i => covers_refl _
    intro d r d' hy
    obtain ⟨hbody, hd⟩ := yields_isolated.1 hy
    exact yields_isolated.2 ⟨covers_sequence h _ _ _ hbody, hd⟩

theorem ported_call (htwin : c₁.Twin c₂) {fn : Expr} {args : List Expr}
    (hserved : (Expr.call pos fn args).Served c₁ c₂) (hfn : Ported c₁ c₂ fn)
    (hargs : ∀ e ∈ args, Ported c₁ c₂ e) : Ported c₁ c₂ (.call pos fn args) := by
  have hfold := hserved.fold?
  cases hserved with
  | call hcallee _ hknown =>
  have hvalues : (args.map fun e => e.fold? c₁) = args.map fun e => e.fold? c₂ :=
    List.map_congr_left fun e he => (hknown e he).fold?
  intro use base depth
  rw [expr, expr, hcallee.isNegation]
  split
  · exact covers_operandAt hargs _ _ _ _
  refine .map _ (.unless ((covers_callee hcallee).bind fun c => ?_))
  cases c with
  | self =>
    rw [htwin.frame]
    exact .unless ((covers_arguments hargs _ _).bind fun a => covers_refl _)
  | named v =>
    exact (covers_checkArity htwin.env _ _).bind fun _ => (covers_intern v).bind fun i =>
      (covers_arguments hargs _ _).bind fun a => covers_refl _
  | builtin b =>
    refine .unless ?_
    rw [hfold]
    dsimp only
    split
    · exact covers_load _
    rw [hvalues]
    split
    · exact covers_operandAt hargs _ _ _ _
    · exact (covers_operandAt hargs _ _ _ _).bind fun f => covers_refl _
    · exact (covers_operandAt hargs _ _ _ _).bind fun f => covers_refl _
    · exact (covers_arguments hargs _ _).bind fun a => covers_refl _
  | computed =>
    exact (hfn _ _ _).bind fun f => (covers_arguments hargs _ _).bind fun a => covers_refl _

theorem ported_apply (htwin : c₁.Twin c₂) {fn : Expr} {args : List Expr}
    (hserved : fn.Served c₁ c₂) (hfn : Ported c₁ c₂ fn) (hargs : ∀ e ∈ args, Ported c₁ c₂ e) :
    Ported c₁ c₂ (.apply pos fn args) := by
  intro use base depth
  rw [expr, expr]
  refine .map _ (.unless (.unless (covers_calleeSelf hserved ?_ fun c c' hc hc' => ?_)))
  · rw [htwin.frame]
    exact .unless ((covers_spread hargs _ _).bind fun a => covers_refl _)
  · split
    · exact absurd rfl hc
    · exact (hfn _ _ _).bind fun f => (covers_spread hargs _ _).bind fun a => covers_refl _

theorem ported_cond {test yes : Expr} {no : Option Expr} (hserved : test.Served c₁ c₂)
    (htest : Ported c₁ c₂ test) (hyes : Ported c₁ c₂ yes)
    (hno : ∀ e, no = some e → Ported c₁ c₂ e) : Ported c₁ c₂ (.cond pos test yes no) := by
  intro use base depth
  rw [expr, expr, hserved.fold?, hserved.negated]
  refine .map _ ?_
  split
  · exact hyes _ _ _
  · exact covers_otherwise hno _ _ _
  refine (htest _ _ _).bind fun t => (hyes _ _ _).bind fun y => ?_
  split
  · exact (covers_checkTarget _).bind fun _ => (covers_otherwise hno _ _ _).bind fun n =>
      covers_refl _
  · exact (covers_checkTarget _).bind fun _ => (covers_otherwise hno _ _ _).bind fun n =>
      (covers_checkTarget _).bind fun _ => covers_refl _

/-- An expression that is served has the same code in both contexts. -/
theorem ported_of_served {e : Expr} (h : e.Served c₁ c₂) (htwin : c₁.Twin c₂) :
    Ported c₁ c₂ e := by
  induction h with
  | literal =>
    intro use base depth
    rw [expr, expr]
    exact .map _ (covers_load _)
  | ident hn =>
    intro use base depth
    rw [expr, expr]
    exact .map _ (covers_loadName hn)
  | call hcallee hfn hargs ihfn ihargs =>
    exact ported_call htwin (.call hcallee hfn hargs) (ihfn htwin) fun e he => ihargs e he htwin
  | apply hfn _ ihfn ihargs =>
    exact ported_apply htwin hfn (ihfn htwin) fun e he => ihargs e he htwin
  | cond htest _ _ ihtest ihyes ihno =>
    exact ported_cond htest (ihtest htwin) (ihyes htwin) fun e he => ihno e he htwin
  | lambda _ ih =>
    intro use base depth
    rw [expr, expr]
    exact .map _ (covers_function htwin fun e he => ih e he (htwin.enter _ _ _))
  | define | const =>
    intro use base depth
    rw [expr]
    exact covers_refuse
  | letIn _ _ ihvalues ihbody =>
    intro use base depth
    rw [expr, expr]
    refine .map _ ((covers_values (fun b hb => ihvalues b hb htwin) _ _).bind fun v =>
      (covers_refl _).bind fun _ => (covers_sequence (fun e he => ?_) _ _ _).bind fun b =>
        covers_refl _)
    exact ihbody depth e he (htwin.bind _ _)
  | block _ ih =>
    intro use base depth
    rw [expr, expr]
    exact .map _ (covers_sequence (fun e he => ih e he htwin) _ _ _)
  | and _ ih | or _ ih =>
    intro use base depth
    rw [expr, expr]
    refine .map _ ?_
    split
    · exact covers_refl _
    · exact (covers_operands (fun e he => ih e he htwin) _ _ _).bind fun fs =>
        covers_joinOperands _ _ _

end Lower

namespace Compilation

open Lower

variable {c₁ c₂ : Context} {pos : Position} {name : Bytes}

/-- The parts of a definition are served. A function that is defined has the name of its
definition. -/
def DefinitionServed (c₁ c₂ : Context) (name : Bytes) : Expr → Prop
  | .lambda _ own params body =>
    let captures := (capturedBy c₁ name (Expr.freeNames own params body)).map Prod.fst
    ∀ e ∈ body, e.Served (c₁.enter name params captures) (c₂.enter name params captures)
  | value => value.Served c₁ c₂

theorem covers_define (htwin : c₁.Twin c₂) {value : Expr}
    (h : DefinitionServed c₁ c₂ name value) :
    Covers (define c₁ pos name value) (define c₂ pos name value) := by
  refine (covers_intern _).bind fun i => ?_
  split
  · refine Covers.bind (.map _ (covers_function htwin fun e he => ?_)) fun f => covers_refl _
    exact ported_of_served (h e he) (htwin.enter _ _ _)
  · next hne =>
    have hserved : value.Served c₁ c₂ := by
      unfold DefinitionServed at h
      split at h
      · exact absurd rfl (hne _ _ _ _)
      · exact h
    exact (ported_of_served hserved htwin _ _ _).bind fun f => covers_refl _

theorem covers_const {value : Expr} (h : value.Served c₁ c₂) :
    Covers (const c₁ pos name value) (const c₂ pos name value) := by
  unfold const
  rw [h.fold?]
  split
  · exact covers_refuse
  · exact (covers_intern _).bind fun i => (covers_load _).bind fun f => covers_refl _

/-- The parts of a form are served. -/
def FormServed (c₁ c₂ : Context) : Expr → Prop
  | .define _ name value => DefinitionServed c₁ c₂ name value
  | .const _ _ value => value.Served c₁ c₂
  | e => e.Served c₁ c₂

theorem covers_formCode (htwin : c₁.Twin c₂) {e : Expr} (h : FormServed c₁ c₂ e) :
    Covers (formCode c₁ e) (formCode c₂ e) := by
  unfold formCode
  rw [htwin.env]
  split
  · exact (covers_define htwin h).bind fun f => covers_refl _
  · exact (covers_const h).bind fun f => covers_refl _
  · next hd hc =>
    have hserved : e.Served c₁ c₂ := by
      unfold FormServed at h
      split at h
      · exact absurd rfl (hd _ _ _)
      · exact absurd rfl (hc _ _ _)
      · exact h
    exact (ported_of_served hserved htwin _ _ _).bind fun f => covers_refl _

/-- A form that is served has the same image in both contexts, and the same environment behind
it. -/
theorem form_of_served (htwin : c₁.Twin c₂) {e : Expr} (h : FormServed c₁ c₂ e) {img : Image}
    {env : Environment} (hform : (form c₁ e).1 = .ok (img, env)) :
    (form c₂ e).1 = .ok (img, env) := by
  unfold form at hform ⊢
  split at hform
  · cases hform
  · next f env' d hcode =>
    have hcode' : formCode c₂ e {} = (.ok (f, env'), d) := covers_formCode htwin h hcode
    rw [hcode', ← htwin.filename]
    exact hform

variable {R : Context → Context → Prop}

theorem definitionServed_of_serving (hR : Context.Serving R) (h : R c₁ c₂) (value : Expr) :
    DefinitionServed c₁ c₂ name value := by
  unfold DefinitionServed
  split
  · exact fun e _ => hR.served (hR.enter h _ _ _) e
  · exact hR.served h _

theorem formServed_of_serving (hR : Context.Serving R) (h : R c₁ c₂) (e : Expr) :
    FormServed c₁ c₂ e := by
  unfold FormServed
  split
  · exact definitionServed_of_serving hR h _
  · exact hR.served h _
  · exact hR.served h _

end Compilation

/-- `c₂` knows at least the names that `c₁` knows, and means the same by them. -/
structure Context.Weaker (c₁ c₂ : Context) : Prop extends Context.Twin c₁ c₂ where
  globals : ∀ n, n ∈ c₁.options.globals ↔ n ∈ c₂.options.globals
  builtins : c₁.options.builtins = c₂.options.builtins
  topLevel : c₁.isTopLevel = c₂.isTopLevel
  late : c₁.options.lateBinding = true → c₂.options.lateBinding = true
  own : ∀ n, c₁.declared.lookup n = some c₁.form → c₂.declared.lookup n = some c₂.form

namespace Context.Weaker

variable {c₁ c₂ : Context}

theorem bind (h : c₁.Weaker c₂) (slot : Nat) (names : List Bytes) :
    (c₁.bind slot names).Weaker (c₂.bind slot names) :=
  ⟨h.toTwin.bind slot names, h.globals, h.builtins, h.topLevel, h.late, h.own⟩

theorem enter (h : c₁.Weaker c₂) (name : Bytes) (params captures : List Bytes) :
    (c₁.enter name params captures).Weaker (c₂.enter name params captures) :=
  ⟨h.toTwin.enter name params captures, h.globals, h.builtins, rfl, h.late, h.own⟩

theorem serves (h : c₁.Weaker c₂) (n : Bytes) : c₁.Serves c₂ n := by
  refine .of_resolve ?_ fun _ hlate => ?_
  · unfold resolve
    rw [h.frame, h.env, h.builtins]
    simp only [h.globals n]
  · unfold bindsLate at hlate ⊢
    rw [← h.topLevel]
    simp only [Bool.and_eq_true, Bool.or_eq_true, beq_iff_eq] at hlate ⊢
    exact ⟨hlate.1, hlate.2.imp (h.own n) h.late⟩

theorem serving : Serving Weaker := ⟨bind, enter, serves⟩

end Context.Weaker
end StackLisp
