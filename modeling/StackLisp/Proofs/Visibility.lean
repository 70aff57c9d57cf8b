import StackLisp.Proofs.FreeNames
import StackLisp.Proofs.Scopes
import StackLisp.Proofs.Spelling
import StackLisp.Proofs.Tracing

/-! The slots of the compiler and the variables of a scope agree on the names that are free in an
expression, inside a `let` and inside a function as around them. -/
namespace StackLisp

open Evaluation (Scope visible)
open Lower (capturedBy mem_capturedBy)

theorem lookup_map {α β : Type} (g : α → β) (n : Bytes) (xs : List (Bytes × α)) :
    (xs.map fun b => (b.1, g b.2)).lookup n = (xs.lookup n).map g := by
  induction xs with
  | nil => rfl
  | cons x xs ih =>
    rw [List.map_cons, List.lookup_cons, List.lookup_cons, ih]
    cases n == x.1 <;> rfl

theorem lookup_eq_none {α : Type} {n : Bytes} {xs : List (Bytes × α)}
    (h : n ∉ xs.map Prod.fst) : xs.lookup n = none := by
  rw [← Option.isNone_iff_eq_none, ← Option.not_isSome, isSome_lookup]
  simpa using h

namespace Variable

variable {params i k : Nat} {captured : List Variable}

theorem inSlot_parameter (h : i < params) :
    inSlot params captured i = { place := .parameter i } := by
  rw [inSlot, if_pos h]

theorem inSlot_captured {v : Variable} (h : captured[k]? = some v) :
    inSlot params captured (params + k) = v.fromInside := by
  rw [inSlot, if_neg (by omega), Nat.add_sub_cancel_left, h]

theorem inSlot_above :
    inSlot params captured (params + captured.length + i) = { place := .above i } := by
  simp [inSlot, Nat.add_assoc]

end Variable

/-- The scope gives the name the variable in its slot, or neither knows it. -/
def Frame.Agrees (frame : Frame) (inSlot : Nat → Variable) (scope : Scope Variable)
    (n : Bytes) : Prop :=
  scope.lookup n = (frame.slot? n).map inSlot

namespace Frame.Agrees

variable {frame : Frame} {inSlot : Nat → Variable} {scope : Scope Variable} {n : Bytes}

theorem agreeOn {ctx outer : Context} (h : ctx.frame.Agrees inSlot scope n)
    (halike : outer.Alike ctx) : (visible outer scope).AgreeOn ctx n := by
  refine Context.Alike.agreeOn ⟨halike.options, halike.env, halike.declared, halike.form,
    halike.name, halike.topLevel⟩ ?_
  rw [isSome_slot?_visible, show scope.lookup n = _ from h, Option.isSome_map]

/-- Names in consecutive slots. -/
private theorem lookup_zip {names : List Bytes} {vs : List Variable} {slot : Nat}
    (hlen : vs.length = names.length)
    (hvs : ∀ (i : Nat) (v : Variable), vs[i]? = some v → inSlot (slot + i) = v) :
    (names.zip vs).reverse.lookup n = ((names.zipIdx slot).reverse.lookup n).map inSlot := by
  have hzip : names.zip vs = (names.zipIdx slot).map fun b => (b.1, inSlot b.2) := by
    induction names generalizing vs slot with
    | nil => rfl
    | cons name names ih =>
      cases vs with
      | nil => simp at hlen
      | cons v vs =>
        have hrest : names.zip vs = (names.zipIdx (slot + 1)).map fun b => (b.1, inSlot b.2) := by
          refine ih (Nat.succ.inj hlen) fun i w hi => ?_
          rw [Nat.add_assoc, Nat.add_comm 1 i]
          exact hvs (i + 1) w hi
        simp [hrest, ← hvs 0 v rfl]
  rw [hzip, ← List.map_reverse, lookup_map]

private theorem lookup_zipIdx_of_mem {names : List Bytes} (slot : Nat) (h : n ∈ names) :
    ∃ s, (names.zipIdx slot).reverse.lookup n = some s := by
  rw [← Option.isSome_iff_exists, isSome_lookup]
  simpa using h

/-- New names hide those around them on both sides. -/
theorem bind {names : List Bytes} {vs : List Variable} {slot : Nat}
    (h : n ∉ names → frame.Agrees inSlot scope n) (hlen : vs.length = names.length)
    (hvs : ∀ (i : Nat) (v : Variable), vs[i]? = some v → inSlot (slot + i) = v) :
    (frame.bind slot names).Agrees inSlot (scope.bind names vs) n := by
  unfold Frame.Agrees Frame.slot? at h ⊢
  rw [Scope.bind, Frame.locals_bind, List.lookup_append, List.lookup_append, Option.map_or,
    lookup_zip hlen hvs]
  by_cases hn : n ∈ names
  · obtain ⟨s, hs⟩ := lookup_zipIdx_of_mem slot hn
    rw [hs]
    rfl
  · rw [h hn]

/-- Captured values hide parameters, and parameters hide what is around the function. -/
private theorem ofFunction {name : Bytes} {params : List Bytes} {captured : List (Bytes × Nat)}
    (h : (n ∈ params ∧ n ∉ captured.map Prod.fst) ∨
      (n ∉ params ∧ scope.lookup n = (captured.reverse.lookup n).map inSlot)) :
    (Frame.ofFunction name params (captured.map Prod.fst)).Agrees
      (.inSlot params.length (captured.map fun c => inSlot c.2)) (scope.enter params) n := by
  generalize hinner : Variable.inSlot params.length (captured.map fun c => inSlot c.2) = inner
  have hparams : (params.zip ((List.range params.length).map fun i =>
      ({ place := .parameter i } : Variable))).reverse.lookup n =
        ((params.zipIdx 0).reverse.lookup n).map inner := by
    refine lookup_zip (by simp) fun i v hi => ?_
    obtain ⟨hlt, rfl⟩ := List.getElem?_eq_some_iff.1 hi
    rw [← hinner, Nat.zero_add, Variable.inSlot_parameter (by simpa using hlt)]
    simp
  have hcaptures : (captured.map fun c => (c.1, (inSlot c.2).fromInside)).reverse.lookup n =
      (((captured.map Prod.fst).zipIdx params.length).reverse.lookup n).map inner := by
    rw [← List.zip_map']
    refine lookup_zip (by simp) fun i v hi => ?_
    obtain ⟨c, hc, rfl⟩ := Option.map_eq_some_iff.1 (List.getElem?_map ▸ hi)
    rw [← hinner]
    exact Variable.inSlot_captured (by simp [hc])
  unfold Frame.Agrees Scope.enter Scope.bind Frame.ofFunction Frame.slot?
  rw [Frame.locals_bind, List.zipIdx_append, List.reverse_append, List.append_nil,
    List.lookup_append, List.lookup_append, Option.map_or, Nat.zero_add, ← hcaptures, hparams,
    lookup_map Variable.fromInside, ← List.map_reverse,
    lookup_map fun s => (inSlot s).fromInside]
  rcases h with ⟨hp, hc⟩ | ⟨hp, hc⟩
  · have hnone : captured.reverse.lookup n = none := lookup_eq_none (by simpa using hc)
    obtain ⟨s, hs⟩ := lookup_zipIdx_of_mem 0 hp
    rw [hnone, hs]
    rfl
  · rw [lookup_eq_none (by simpa using hp), hc]
    cases captured.reverse.lookup n <;> rfl

/-- A function captures what is local around it and free in it. -/
private theorem lookup_capturedBy {ctx : Context} {name : Bytes} {free : List Bytes}
    (h : (ctx.frame.slot? n).isSome → n ∈ free ∧ n ≠ name) :
    (capturedBy ctx name free).reverse.lookup n = ctx.frame.slot? n := by
  cases hl : (capturedBy ctx name free).reverse.lookup n with
  | some s =>
    obtain ⟨l₁, l₂, hsplit, -⟩ := List.lookup_eq_some_iff.1 hl
    have hmem : (n, s) ∈ (capturedBy ctx name free).reverse := by simp [hsplit]
    exact (mem_capturedBy.1 (List.mem_reverse.1 hmem)).2.2.symm
  | none =>
    cases hs : ctx.frame.slot? n with
    | none => rfl
    | some s =>
      obtain ⟨hfree, hname⟩ := h (by rw [hs]; rfl)
      have hmem : (n, s) ∈ (capturedBy ctx name free).reverse :=
        List.mem_reverse.2 (mem_capturedBy.2 ⟨hfree, hname, hs⟩)
      have hne := List.lookup_eq_none_iff.1 hl _ hmem
      simp at hne

/-- A function sees its parameters and, through its captures, the variables around it that are free
in it. -/
theorem enter {name : Bytes} {params free : List Bytes} {ctx : Context}
    (hfree : ∀ m ∈ free, m ∉ params)
    (hn : n ∉ params → ctx.frame.Agrees inSlot scope n ∧
      ((ctx.frame.slot? n).isSome → n ∈ free ∧ n ≠ name)) :
    (Frame.ofFunction name params ((capturedBy ctx name free).map Prod.fst)).Agrees
      (.inSlot params.length ((capturedBy ctx name free).map fun c => inSlot c.2))
      (scope.enter params) n := by
  refine ofFunction ?_
  by_cases hp : n ∈ params
  · refine .inl ⟨hp, fun hmem => ?_⟩
    obtain ⟨c, hc, rfl⟩ := List.mem_map.1 hmem
    exact hfree c.1 (mem_capturedBy.1 hc).1 hp
  · obtain ⟨hagrees, hlocal⟩ := hn hp
    refine .inr ⟨hp, ?_⟩
    rw [lookup_capturedBy hlocal]
    exact hagrees

end Frame.Agrees

namespace Expr

theorem Spelled.child {e x : Expr} (h : e.Spelled) (hdecl : Compilation.declaredName? e = none)
    (hx : x ∈ e.children) : x.Spelled := by
  cases h with
  | literal | ident => cases hx
  | call hfn hargs | apply hfn hargs =>
    rcases List.mem_cons.1 hx with rfl | hx
    · exact hfn
    · exact hargs x hx
  | cond htest hyes hno =>
    simp only [children, List.mem_cons, Option.mem_toList] at hx
    rcases hx with rfl | rfl | hx
    · exact htest
    · exact hyes
    · exact hno x hx
  | lambda hbody | block hbody | and hbody | or hbody => exact hbody x hx
  | define | defineFunction | const => cases hdecl
  | letIn hvalues hbody =>
    rcases List.mem_append.1 hx with hx | hx
    · obtain ⟨b, hb, rfl⟩ := List.mem_map.1 hx
      exact hvalues b hb
    · exact hbody x hx

theorem Spelled.definedValue {pos : Position} {name : Bytes} {value : Expr}
    (h : (Expr.define pos name value).Spelled)
    (hne : ∀ place own params body, value ≠ .lambda place own params body) : value.Spelled := by
  cases h with
  | define hvalue => exact hvalue
  | defineFunction => exact absurd rfl (hne _ _ _ _)

theorem Spelled.definedBody {pos place : Position} {name own : Bytes} {params : List Bytes}
    {body : List Expr} (h : (Expr.define pos name (.lambda place own params body)).Spelled) :
    ∀ e ∈ body, e.Spelled := by
  cases h with
  | define hvalue =>
    cases hvalue with
    | lambda hbody => exact hbody
  | defineFunction hbody => exact hbody

/-- Names that can be written are not empty. -/
theorem Spelled.ne_nil_of_free {e : Expr} {n : Bytes} (h : e.Spelled) (hn : e.Free n) :
    n ≠ [] := by
  induction h with
  | literal => exact absurd hn not_free_literal
  | ident hne =>
    rw [free_ident] at hn
    exact hn ▸ hne
  | call _ _ ihfn ihargs =>
    rcases free_call.1 hn with hn | ⟨e, he, hn⟩
    · exact ihfn hn
    · exact ihargs e he hn
  | apply _ _ ihfn ihargs =>
    rcases free_apply.1 hn with hn | ⟨e, he, hn⟩
    · exact ihfn hn
    · exact ihargs e he hn
  | cond _ _ _ ihtest ihyes ihno =>
    rcases free_cond.1 hn with hn | hn | ⟨e, he, hn⟩
    · exact ihtest hn
    · exact ihyes hn
    · exact ihno e he hn
  | lambda _ ih =>
    obtain ⟨-, e, he, hn⟩ := free_lambda.1 hn
    exact ih e he hn
  | define _ ih => exact ih (free_define.1 hn)
  | defineFunction _ ih =>
    obtain ⟨-, e, he, hn⟩ := free_lambda.1 (free_define.1 hn)
    exact ih e he hn
  | const _ ih => exact ih (free_const.1 hn)
  | letIn _ _ ihvalues ihbody =>
    rcases free_letIn.1 hn with ⟨b, hb, hn⟩ | ⟨-, e, he, hn⟩
    · exact ihvalues b hb hn
    · exact ihbody e he hn
  | block _ ih =>
    obtain ⟨e, he, hn⟩ := free_block.1 hn
    exact ih e he hn
  | and _ ih =>
    obtain ⟨e, he, hn⟩ := free_and.1 hn
    exact ih e he hn
  | or _ ih =>
    obtain ⟨e, he, hn⟩ := free_or.1 hn
    exact ih e he hn

/-- Can be written, and the scope and the frame agree on all names that are free in it. -/
structure Resolved (frame : Frame) (inSlot : Nat → Variable) (scope : Scope Variable)
    (e : Expr) : Prop where
  spelled : e.Spelled
  agrees : ∀ n, e.Free n → frame.Agrees inSlot scope n

namespace Resolved

variable {frame : Frame} {inSlot : Nat → Variable} {scope : Scope Variable} {e : Expr}

theorem mem_children {n : Bytes} {x : Expr} (h : x ∈ e.exposed n) : x ∈ e.children := by
  unfold exposed at h
  split at h
  · split at h
    · cases h
    · exact h
  · split at h <;> simp_all [children]
  · exact h

/-- Parts that see the same names are resolved in the same way. -/
theorem parts {es : List Expr} (h : ∀ x ∈ [e], x.Resolved frame inSlot scope)
    (hdecl : Compilation.declaredName? e = none) (hes : ∀ n, es ⊆ e.exposed n) :
    ∀ x ∈ es, x.Resolved frame inSlot scope :=
  fun _ hx => ⟨(h e (.head _)).spelled.child hdecl (mem_children (hes [] hx)),
    fun n hn => (h e (.head _)).agrees n (.child (hes n hx) hn)⟩

theorem call {pos : Position} {fn : Expr} {args : List Expr}
    (h : ∀ x ∈ [Expr.call pos fn args], x.Resolved frame inSlot scope) :
    fn.Resolved frame inSlot scope ∧ ∀ x ∈ args, x.Resolved frame inSlot scope :=
  List.forall_mem_cons.1 (parts h rfl fun _ => List.Subset.refl _)

theorem apply {pos : Position} {fn : Expr} {args : List Expr}
    (h : ∀ x ∈ [Expr.apply pos fn args], x.Resolved frame inSlot scope) :
    fn.Resolved frame inSlot scope ∧ ∀ x ∈ args, x.Resolved frame inSlot scope :=
  List.forall_mem_cons.1 (parts h rfl fun _ => List.Subset.refl _)

theorem cond {pos : Position} {test yes : Expr} {no : Option Expr}
    (h : ∀ x ∈ [Expr.cond pos test yes no], x.Resolved frame inSlot scope) :
    test.Resolved frame inSlot scope ∧ yes.Resolved frame inSlot scope ∧
      ∀ x ∈ no.toList, x.Resolved frame inSlot scope := by
  obtain ⟨htest, hrest⟩ := List.forall_mem_cons.1 (parts h rfl fun _ => List.Subset.refl _)
  exact ⟨htest, List.forall_mem_cons.1 hrest⟩

/-- The body of a `let` sees its names. -/
theorem letBody {pos : Position} {bindings : List (Binding Expr)} {body : List Expr}
    {height depth : Nat}
    (h : ∀ x ∈ [Expr.letIn pos bindings body], x.Resolved frame inSlot scope)
    (habove : ∀ i, inSlot (height + i) = { place := .above (depth + i) }) :
    ∀ x ∈ body, x.Resolved (frame.bind height (bindings.map Binding.name)) inSlot
      (scope.define depth (bindings.map Binding.name)) := by
  intro x hx
  have hlet := h _ (.head _)
  refine ⟨hlet.spelled.child rfl (List.mem_append_right _ hx), fun n hn => ?_⟩
  refine Frame.Agrees.bind (fun hnames => ?_) (by simp) fun i v hi => ?_
  · exact hlet.agrees n (free_letIn.2 (.inr ⟨hnames, x, hx, hn⟩))
  · obtain ⟨hlt, rfl⟩ := List.getElem?_eq_some_iff.1 hi
    rw [habove]
    simp

/-- The body of a function sees what it captures. -/
theorem functionBody {pos : Position} {name : Bytes} {params free : List Bytes}
    {body : List Expr} {ctx : Context}
    (h : ∀ x ∈ [Expr.lambda pos [] params body], x.Resolved ctx.frame inSlot scope)
    (hparams : ∀ n ∈ free, n ∉ params)
    (hfree : ∀ n, (Expr.lambda pos [] params body).Free n → (ctx.frame.slot? n).isSome →
      n ∈ free ∧ n ≠ name) :
    ∀ x ∈ body, x.Resolved
      (Frame.ofFunction name params ((capturedBy ctx name free).map Prod.fst))
      (.inSlot params.length ((capturedBy ctx name free).map fun c => inSlot c.2))
      (scope.enter params) := by
  intro x hx
  have hlambda := h _ (.head _)
  refine ⟨hlambda.spelled.child rfl hx, fun n hn => Frame.Agrees.enter hparams fun hp => ?_⟩
  have hout : (Expr.lambda pos [] params body).Free n := free_lambda.2 ⟨hp, x, hx, hn⟩
  exact ⟨hlambda.agrees n hout, hfree n hout⟩

theorem fold? {ctx outer : Context} (h : e.Resolved ctx.frame inSlot scope)
    (halike : outer.Alike ctx) : e.fold? (visible outer scope) = e.fold? ctx :=
  fold?_congr fun n hn => (h.agrees n hn).agreeOn halike

theorem callee {ctx outer : Context} {d d' : Draft} {c : Lower.Callee}
    (h : e.Resolved ctx.frame inSlot scope) (halike : outer.Alike ctx)
    (hy : Lower.Yields (Lower.callee ctx e) d c d') : Evaluation.callee outer scope e = c :=
  callee_of_alike ⟨halike.options, halike.env, halike.declared, halike.form, halike.name,
    halike.topLevel⟩ (fun n hn => (h.agrees n hn).agreeOn halike) hy

/-- A call of a system function is seen as such, with the same values known. -/
theorem builtin {ctx outer : Context} {pos : Position} {fn : Expr} {args : List Expr}
    {b : Builtin} {d d' : Draft}
    (h : ∀ x ∈ [Expr.call pos fn args], x.Resolved ctx.frame inSlot scope)
    (halike : outer.Alike ctx) (hc : Lower.Yields (Lower.callee ctx fn) d (.builtin b) d')
    (hf : (Expr.call pos fn args).fold? ctx = none) :
    Evaluation.callee outer scope fn = .builtin b ∧
      (Expr.call pos fn args).fold? (visible outer scope) = none ∧
      (args.map fun e => e.fold? (visible outer scope)) = args.map fun e => e.fold? ctx := by
  obtain ⟨hfn, hargs⟩ := call h
  refine ⟨hfn.callee halike hc, ((h _ (.head _)).fold? halike).trans hf, ?_⟩
  exact List.map_congr_left fun e he => (hargs e he).fold? halike

theorem isNot {ctx outer : Context} (h : e.Resolved ctx.frame inSlot scope)
    (halike : outer.Alike ctx) : Evaluation.isNot outer scope e = Lower.isNegation ctx e 1 := by
  rw [isNot_eq_isNegation,
    Lower.isNegation_congr fun n hn => (h.agrees n hn).agreeOn halike]

end Resolved
end Expr
end StackLisp
