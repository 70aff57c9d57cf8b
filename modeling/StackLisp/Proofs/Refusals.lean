import StackLisp.Compilation
import StackLisp.Proofs.Success
import StackLisp.Proofs.Syntax

/-! Why expressions are refused. Whatever holds of all refusals that do not concern a name, and of
those for the names that an expression uses, holds of every refusal of the expression. -/
namespace StackLisp

/-- The refusal of a name that stands for nothing. -/
def Refusal.isNaming (r : Refusal) : Bool := r.code = .unboundName ∨ r.code = .forwardReference

theorem Refusal.isNaming_eq_true {r : Refusal} :
    r.isNaming = true ↔ r.code = .unboundName ∨ r.code = .forwardReference := decide_eq_true_iff

/-- Why a name that stands for nothing is refused. -/
def Context.blame (ctx : Context) (name : Bytes) : Refusal :=
  if ctx.isForward name then .forwardReference name else .unbound name ctx.visibleNames

namespace Lower

/-- Every refusal of the step has the property. -/
def Refuses {α : Type} (P : LocatedRefusal → Prop) (m : Lower α) : Prop :=
  ∀ ⦃d r d'⦄, m d = (.error r, d') → P r

/-- The property holds of all refusals that do not concern a name. -/
def Lenient (P : LocatedRefusal → Prop) : Prop := ∀ r pos, r.isNaming = false → P ⟨r, pos⟩

section
variable {α β : Type} {P Q : LocatedRefusal → Prop}

theorem refuses_pure (a : α) : Refuses P (pure a) := by
  intro d r d' h
  cases h

theorem refuses_refuse {pos : Position} {r : Refusal} (h : P ⟨r, pos⟩) :
    Refuses P (refuse pos r : Lower α) := by
  intro d r' d' heq
  cases heq
  exact h

theorem Refuses.bind {m : Lower α} {k : α → Lower β} (hm : Refuses P m)
    (hk : ∀ a, Refuses P (k a)) : Refuses P (m >>= k) := by
  intro d r d' h
  change ExceptT.bindCont k (m d).1 (m d).2 = _ at h
  rcases hstep : m d with ⟨x, d₁⟩
  rw [hstep] at h
  cases x with
  | error r' =>
    cases h
    exact hm hstep
  | ok a => exact hk a h

theorem Refuses.map {m : Lower α} (hm : Refuses P m) (g : α → β) : Refuses P (g <$> m) := by
  rw [← bind_pure_comp]
  exact hm.bind fun a => refuses_pure _

theorem Refuses.mono {m : Lower α} (hm : Refuses P m) (h : ∀ r, P r → Q r) : Refuses Q m :=
  fun _ _ _ heq => h _ (hm heq)

/-- Nothing follows a refusal. -/
theorem refuses_refuse_bind {pos : Position} {r : Refusal} {k : α → Lower β} (h : P ⟨r, pos⟩) :
    Refuses P (refuse pos r >>= k) := by
  intro d r' d' heq
  cases heq
  exact h

theorem Refuses.unless {c : Prop} [Decidable c] {pos : Position} {r : Refusal}
    {k : PUnit → Lower α} (hr : P ⟨r, pos⟩) (hk : Refuses P (k ⟨⟩)) :
    Refuses P (if c then refuse pos r >>= k else k ⟨⟩) := by
  split
  · exact refuses_refuse_bind hr
  · exact hk

end

variable {P : LocatedRefusal → Prop} {ctx : Context} {pos : Position}

theorem refuses_addConstant (hP : Lenient P) (c : Constant) :
    Refuses P (addConstant ctx pos c) := by
  unfold addConstant
  refine Refuses.bind (fun _ _ _ h => by cases h) fun d => ?_
  split
  · exact refuses_refuse (hP _ _ rfl)
  · exact Refuses.bind (fun _ _ _ h => by cases h) fun _ => refuses_pure _

theorem refuses_intern (hP : Lenient P) (v : Value) : Refuses P (intern ctx pos v) := by
  unfold intern
  refine Refuses.bind (fun _ _ _ h => by cases h) fun d => ?_
  split
  · exact refuses_pure _
  · exact refuses_addConstant hP _

theorem refuses_load (hP : Lenient P) (v : Value) : Refuses P (load ctx pos v) := by
  unfold load
  split
  · exact refuses_pure _
  · exact refuses_pure _
  · exact refuses_pure _
  · exact (refuses_intern hP _).bind fun i => refuses_pure _

theorem refuses_checkTarget (hP : Lenient P) (target : Nat) :
    Refuses P (checkTarget ctx pos target) := by
  unfold checkTarget
  split
  · exact refuses_refuse (hP _ _ rfl)
  · exact refuses_pure _

theorem refuses_checkArity (hP : Lenient P) (v : Value) (argc : Nat) :
    Refuses P (checkArity ctx pos v argc) := by
  unfold checkArity
  split
  · split
    · split
      · exact refuses_refuse (hP _ _ rfl)
      · exact refuses_pure _
    · exact refuses_pure _
  · exact refuses_pure _

theorem refuses_checkFunction (hP : Lenient P) (params : List Bytes) (captures : Nat) :
    Refuses P (checkFunction pos params captures) := by
  unfold checkFunction
  split
  · exact refuses_refuse (hP _ _ rfl)
  · split
    · exact refuses_refuse (hP _ _ rfl)
    · split
      · exact refuses_refuse (hP _ _ rfl)
      · exact refuses_pure _

theorem refuses_isolated {α : Type} {slots : List Bytes} {m : Lower α} (h : Refuses P m) :
    Refuses P (isolated slots m) := by
  intro d r d' heq
  unfold isolated at heq
  split at heq
  · cases heq
  · next herror =>
    cases heq
    exact h herror

theorem refuses_complete (f : Function) : Refuses P (complete f) := by
  intro d r d' h
  cases h

theorem refuses_joinOperands (hP : Lenient P) (branch : Opcode) (base : Nat)
    (fs : List Fragment) : Refuses P (joinOperands ctx pos branch base fs) := by
  unfold joinOperands
  split
  · exact refuses_pure _
  · exact refuses_pure _
  · exact (refuses_checkTarget hP _).bind fun _ => refuses_pure _

/-- If the expression is a name that stands for nothing, its refusal has the property. -/
def Blames (P : LocatedRefusal → Prop) (ctx : Context) (e : Expr) : Prop :=
  ∀ place n, e = .ident place n → ctx.lookup n = .unbound → P ⟨ctx.blame n, place⟩

theorem refuses_resolve {n : Bytes} (h : Blames P ctx (.ident pos n)) :
    Refuses P (resolve ctx pos n) := by
  unfold resolve
  split
  · next hn =>
    have hblame := h pos n rfl hn
    unfold Context.blame at hblame
    split
    · next hforward =>
      rw [if_pos hforward] at hblame
      exact refuses_refuse hblame
    · next hforward =>
      rw [if_neg hforward] at hblame
      exact refuses_refuse hblame
  · exact refuses_pure _

theorem refuses_loadName (hP : Lenient P) {n : Bytes} (h : Blames P ctx (.ident pos n)) :
    Refuses P (loadName ctx pos n) := by
  unfold loadName
  refine (refuses_resolve h).bind fun r => ?_
  split
  · exact refuses_pure _
  · exact refuses_load hP _
  · exact (refuses_intern hP _).bind fun i => refuses_pure _

theorem refuses_callee {fn : Expr} (h : Blames P ctx fn) : Refuses P (callee ctx fn) := by
  unfold callee
  split
  · refine (refuses_resolve h).bind fun r => ?_
    split <;> exact refuses_pure _
  · exact refuses_pure _

/-- Every refusal of the expression in this context has the property. -/
def Confined (P : LocatedRefusal → Prop) (ctx : Context) (e : Expr) : Prop :=
  ∀ use base depth, Refuses P (expr ctx use base depth e)

variable {es : List Expr} {use : Use}

theorem refuses_otherwise {no : Option Expr} (h : ∀ e, no = some e → Confined P ctx e)
    (base depth : Nat) : Refuses P (otherwise ctx use base depth no) := by
  cases no with
  | none =>
    rw [otherwise]
    exact refuses_pure _
  | some e =>
    rw [otherwise]
    exact h e rfl use base depth

theorem refuses_sequence (h : ∀ e ∈ es, Confined P ctx e) (base depth : Nat) :
    Refuses P (sequence ctx use base depth es) := by
  induction es generalizing base with
  | nil =>
    rw [sequence]
    exact refuses_pure _
  | cons e rest ih =>
    obtain ⟨he, hrest⟩ := List.forall_mem_cons.1 h
    cases rest with
    | nil =>
      rw [sequence]
      exact he use base depth
    | cons e' rest =>
      rw [sequence]
      · exact (he .value base depth).bind fun f => (ih hrest _).bind fun g => refuses_pure _
      · simp

theorem refuses_arguments (h : ∀ e ∈ es, Confined P ctx e) (base depth : Nat) :
    Refuses P (arguments ctx base depth es) := by
  induction es generalizing base depth with
  | nil =>
    rw [arguments]
    exact refuses_pure _
  | cons e rest ih =>
    obtain ⟨he, hrest⟩ := List.forall_mem_cons.1 h
    rw [arguments]
    exact (he .value base depth).bind fun f => (ih hrest _ _).bind fun g => refuses_pure _

theorem refuses_spread (h : ∀ e ∈ es, Confined P ctx e) (base depth : Nat) :
    Refuses P (spread ctx base depth es) := by
  induction es generalizing base depth with
  | nil =>
    rw [spread]
    exact refuses_pure _
  | cons e rest ih =>
    obtain ⟨he, hrest⟩ := List.forall_mem_cons.1 h
    cases rest with
    | nil =>
      rw [spread]
      exact he .value base depth
    | cons e' rest =>
      rw [spread]
      · exact (he .value base depth).bind fun f => (ih hrest _ _).bind fun g => refuses_pure _
      · simp

theorem refuses_operands (h : ∀ e ∈ es, Confined P ctx e) (base depth : Nat) :
    Refuses P (operands ctx use base depth es) := by
  induction es generalizing base with
  | nil =>
    rw [operands]
    exact refuses_pure _
  | cons e rest ih =>
    obtain ⟨he, hrest⟩ := List.forall_mem_cons.1 h
    cases rest with
    | nil =>
      rw [operands]
      exact (he use base depth).bind fun f => refuses_pure _
    | cons e' rest =>
      rw [operands]
      · exact (he .value base depth).bind fun f => (ih hrest _).bind fun fs => refuses_pure _
      · simp

theorem refuses_operandAt (h : ∀ e ∈ es, Confined P ctx e) (base depth i : Nat) :
    Refuses P (operandAt ctx use base depth i es) := by
  induction es generalizing i with
  | nil =>
    rw [operandAt]
    exact refuses_pure _
  | cons e rest ih =>
    obtain ⟨he, hrest⟩ := List.forall_mem_cons.1 h
    cases i with
    | zero =>
      rw [operandAt]
      exact he use base depth
    | succ i =>
      rw [operandAt]
      exact ih hrest i

theorem refuses_values (hP : Lenient P) {bs : List (Binding Expr)}
    (h : ∀ b ∈ bs, Confined P ctx b.value) (base depth : Nat) :
    Refuses P (values ctx base depth bs) := by
  induction bs generalizing base depth with
  | nil =>
    rw [values]
    exact refuses_pure _
  | cons b rest ih =>
    obtain ⟨name, place, e⟩ := b
    obtain ⟨he, hrest⟩ := List.forall_mem_cons.1 h
    rw [values]
    exact .unless (hP _ _ rfl)
      ((he .value base depth).bind fun f => (ih hrest _ _).bind fun g => refuses_pure _)

theorem refuses_function (hP : Lenient P) {name : Bytes} {params free : List Bytes}
    {body : List Expr}
    (h : ∀ e ∈ body, Confined P
      (ctx.enter name params ((capturedBy ctx name free).map Prod.fst)) e) :
    Refuses P (function ctx pos name params free fun inner slots =>
      sequence inner .tail 0 slots body) := by
  unfold function
  split
  · exact refuses_refuse_bind (hP _ _ rfl)
  · refine (refuses_checkFunction hP _ _).bind fun _ =>
      (refuses_isolated (refuses_sequence h _ _)).bind fun r =>
        (refuses_complete _).bind fun place => (refuses_addConstant hP _).bind fun i => ?_
    split <;> exact refuses_pure _

/-! ### Expressions -/

theorem confined_literal (hP : Lenient P) (v : Value) : Confined P ctx (.literal pos v) := by
  intro use base depth
  rw [expr]
  exact (refuses_load hP v).map _

theorem confined_ident (hP : Lenient P) {n : Bytes} (h : Blames P ctx (.ident pos n)) :
    Confined P ctx (.ident pos n) := by
  intro use base depth
  rw [expr]
  exact (refuses_loadName hP h).map _

theorem confined_call (hP : Lenient P) {fn : Expr} {args : List Expr} (hcallee : Blames P ctx fn)
    (hfn : Confined P ctx fn) (hargs : ∀ e ∈ args, Confined P ctx e) :
    Confined P ctx (.call pos fn args) := by
  intro use base depth
  rw [expr]
  split
  · exact refuses_operandAt hargs _ _ _
  refine Refuses.map (.unless (hP _ _ rfl) ((refuses_callee hcallee).bind fun c => ?_)) _
  cases c with
  | self =>
    exact .unless (hP _ _ rfl) ((refuses_arguments hargs _ _).bind fun a => refuses_pure _)
  | named v =>
    exact (refuses_checkArity hP _ _).bind fun _ => (refuses_intern hP _).bind fun i =>
      (refuses_arguments hargs _ _).bind fun a => refuses_pure _
  | builtin b =>
    refine .unless (hP _ _ rfl) ?_
    split
    · exact refuses_load hP _
    split
    · exact refuses_operandAt hargs _ _ _
    · exact (refuses_operandAt hargs _ _ _).bind fun f => refuses_pure _
    · exact (refuses_operandAt hargs _ _ _).bind fun f => refuses_pure _
    · exact (refuses_arguments hargs _ _).bind fun a => refuses_pure _
  | computed =>
    exact (hfn _ _ _).bind fun f => (refuses_arguments hargs _ _).bind fun a => refuses_pure _

theorem confined_apply (hP : Lenient P) {fn : Expr} {args : List Expr}
    (hcallee : Blames P ctx fn) (hfn : Confined P ctx fn) (hargs : ∀ e ∈ args, Confined P ctx e) :
    Confined P ctx (.apply pos fn args) := by
  intro use base depth
  rw [expr]
  refine Refuses.map (.unless (hP _ _ rfl) (.unless (hP _ _ rfl)
    ((refuses_callee hcallee).bind fun c => ?_))) _
  split
  · exact .unless (hP _ _ rfl) ((refuses_spread hargs _ _).bind fun a => refuses_pure _)
  · exact (hfn _ _ _).bind fun f => (refuses_spread hargs _ _).bind fun a => refuses_pure _

theorem confined_cond (hP : Lenient P) {test yes : Expr} {no : Option Expr}
    (htest : Confined P ctx test) (hyes : Confined P ctx yes)
    (hno : ∀ e, no = some e → Confined P ctx e) : Confined P ctx (.cond pos test yes no) := by
  intro use base depth
  rw [expr]
  refine Refuses.map ?_ _
  split
  · exact hyes _ _ _
  · exact refuses_otherwise hno _ _
  refine (htest _ _ _).bind fun t => (hyes _ _ _).bind fun y => ?_
  split
  · exact (refuses_checkTarget hP _).bind fun _ => (refuses_otherwise hno _ _).bind fun n =>
      refuses_pure _
  · exact (refuses_checkTarget hP _).bind fun _ => (refuses_otherwise hno _ _).bind fun n =>
      (refuses_checkTarget hP _).bind fun _ => refuses_pure _

theorem confined_block {body : List Expr} (h : ∀ e ∈ body, Confined P ctx e) :
    Confined P ctx (.block pos body) := by
  intro use base depth
  rw [expr]
  exact (refuses_sequence h _ _).map _

theorem confined_letIn (hP : Lenient P) {bindings : List (Binding Expr)} {body : List Expr}
    (hvalues : ∀ b ∈ bindings, Confined P ctx b.value)
    (hbody : ∀ slot, ∀ e ∈ body, Confined P (ctx.bind slot (bindings.map Binding.name)) e) :
    Confined P ctx (.letIn pos bindings body) := by
  intro use base depth
  rw [expr]
  refine Refuses.map ((refuses_values hP hvalues _ _).bind fun v => ?_) _
  exact Refuses.bind (fun _ _ _ h => by cases h) fun _ =>
    (refuses_sequence (hbody depth) _ _).bind fun b => refuses_pure _

theorem confined_and (hP : Lenient P) (h : ∀ e ∈ es, Confined P ctx e) :
    Confined P ctx (.and pos es) := by
  intro use base depth
  rw [expr]
  refine Refuses.map ?_ _
  split
  · exact refuses_pure _
  · exact (refuses_operands h _ _).bind fun fs => refuses_joinOperands hP _ _ _

theorem confined_or (hP : Lenient P) (h : ∀ e ∈ es, Confined P ctx e) :
    Confined P ctx (.or pos es) := by
  intro use base depth
  rw [expr]
  refine Refuses.map ?_ _
  split
  · exact refuses_pure _
  · exact (refuses_operands h _ _).bind fun fs => refuses_joinOperands hP _ _ _

theorem confined_lambda (hP : Lenient P) {name : Bytes} {params : List Bytes} {body : List Expr}
    (h : ∀ captures, ∀ e ∈ body, Confined P (ctx.enter name params captures) e) :
    Confined P ctx (.lambda pos name params body) := by
  intro use base depth
  rw [expr]
  exact (refuses_function hP (h _)).map _

theorem confined_define (hP : Lenient P) (name : Bytes) (value : Expr) :
    Confined P ctx (.define pos name value) := by
  intro use base depth
  rw [expr]
  exact refuses_refuse (hP _ _ rfl)

theorem confined_const (hP : Lenient P) (name : Bytes) (value : Expr) :
    Confined P ctx (.const pos name value) := by
  intro use base depth
  rw [expr]
  exact refuses_refuse (hP _ _ rfl)

end Lower
end StackLisp
