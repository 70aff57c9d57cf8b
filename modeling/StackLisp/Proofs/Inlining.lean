import StackLisp.Proofs.Batches
import StackLisp.Proofs.FreeNames

/-! Constants in place of their names. Where a name stands for a constant, a program has the same
code if the value is written instead of the name, but for names in the position of a callee. -/
namespace StackLisp

open Lower (capturedBy)

namespace Expr

def isName : Expr → Bool
  | ident _ _ => true
  | _ => false

mutual
/-- Writes the value `v` for the name `n`, where nothing hides the name and where it is not
called. -/
def inlined (n : Bytes) (v : Value) : Expr → Expr
  | literal pos w => literal pos w
  | ident pos m => if m = n then literal pos v else ident pos m
  | call pos fn args =>
    call pos (if fn.isName then fn else inlined n v fn) (inlinedAll n v args)
  | apply pos fn args =>
    apply pos (if fn.isName then fn else inlined n v fn) (inlinedAll n v args)
  | cond pos test yes no =>
    cond pos (inlined n v test) (inlined n v yes) (inlinedElse n v no)
  | lambda pos own params body =>
    lambda pos own params (if own = n ∨ n ∈ params then body else inlinedAll n v body)
  | define pos name value => define pos name (inlined n v value)
  | const pos name value => const pos name (inlined n v value)
  | letIn pos bindings body =>
    letIn pos (inlinedValues n v bindings)
      (if n ∈ bindings.map Binding.name then body else inlinedAll n v body)
  | block pos body => block pos (inlinedAll n v body)
  | and pos operands => and pos (inlinedAll n v operands)
  | or pos operands => or pos (inlinedAll n v operands)
termination_by structural e => e

def inlinedElse (n : Bytes) (v : Value) : Option Expr → Option Expr
  | none => none
  | some e => some (inlined n v e)
termination_by structural e => e

def inlinedAll (n : Bytes) (v : Value) : List Expr → List Expr
  | [] => []
  | e :: es => inlined n v e :: inlinedAll n v es
termination_by structural es => es

def inlinedValues (n : Bytes) (v : Value) : List (Binding Expr) → List (Binding Expr)
  | [] => []
  | ⟨name, pos, e⟩ :: bs => ⟨name, pos, inlined n v e⟩ :: inlinedValues n v bs
termination_by structural bs => bs
end

variable {n : Bytes} {v : Value}

theorem inlinedAll_eq (es : List Expr) : inlinedAll n v es = es.map (inlined n v) := by
  induction es with
  | nil => rw [inlinedAll, List.map_nil]
  | cons e es ih => rw [inlinedAll, ih, List.map_cons]

theorem inlinedValues_eq (bs : List (Binding Expr)) :
    inlinedValues n v bs = bs.map fun b => { b with value := b.value.inlined n v } := by
  induction bs with
  | nil => rw [inlinedValues, List.map_nil]
  | cons b bs ih => rw [inlinedValues, ih, List.map_cons]

theorem names_inlinedValues (bs : List (Binding Expr)) :
    (inlinedValues n v bs).map Binding.name = bs.map Binding.name := by
  rw [inlinedValues_eq, List.map_map]
  rfl

/-- A callee that is a name is kept. -/
def inlinedCallee (n : Bytes) (v : Value) (fn : Expr) : Expr :=
  if fn.isName then fn else inlined n v fn

theorem inlined_call (pos : Position) (fn : Expr) (args : List Expr) :
    (call pos fn args).inlined n v =
      call pos (inlinedCallee n v fn) (args.map (inlined n v)) := by
  rw [inlined, inlinedAll_eq]
  rfl

theorem inlined_apply (pos : Position) (fn : Expr) (args : List Expr) :
    (apply pos fn args).inlined n v =
      apply pos (inlinedCallee n v fn) (args.map (inlined n v)) := by
  rw [inlined, inlinedAll_eq]
  rfl

theorem inlinedCallee_cases (fn : Expr) :
    (∃ place m, fn = ident place m ∧ inlinedCallee n v fn = ident place m) ∨
      (fn.isName = false ∧ (inlinedCallee n v fn).isName = false ∧
        inlinedCallee n v fn = fn.inlined n v) := by
  cases fn with
  | ident place m => exact .inl ⟨place, m, rfl, rfl⟩
  | _ => exact .inr ⟨rfl, rfl, rfl⟩

@[simp] theorem pos_inlined (e : Expr) : (e.inlined n v).pos = e.pos := by
  cases e with
  | ident pos m =>
    rw [inlined]
    split <;> rfl
  | _ => rfl

theorem pos_inlinedCallee (fn : Expr) : (inlinedCallee n v fn).pos = fn.pos := by
  unfold inlinedCallee
  split
  · rfl
  · exact pos_inlined fn

end Expr

/-- The name stands for the constant `v`, and nothing hides it. -/
structure Context.Knows (ctx : Context) (n : Bytes) (v : Value) : Prop where
  env : ctx.env.find? n = some (.constant v)
  slot : ctx.frame.slot? n = none
  name : ctx.frame.name ≠ [] → ctx.frame.name ≠ n

namespace Context.Knows

variable {ctx : Context} {n : Bytes} {v : Value}

theorem resolve (h : ctx.Knows n v) : ctx.resolve n = .constant v := by
  unfold Context.resolve
  rw [h.slot, h.env]
  exact if_neg fun hself => h.name hself.1 hself.2

theorem lookup (h : ctx.Knows n v) : ctx.lookup n = .constant v := by
  unfold Context.lookup
  rw [h.resolve]

theorem bind (h : ctx.Knows n v) {names : List Bytes} (hn : n ∉ names) (slot : Nat) :
    (ctx.bind slot names).Knows n v where
  env := h.env
  slot := by
    refine Option.not_isSome_iff_eq_none.1 fun hs => ?_
    rcases Frame.isSome_slot?_bind.1 hs with hs | hs
    · exact hn hs
    · rw [h.slot] at hs
      cases hs
  name := by
    rw [Context.bind, Frame.name_bind]
    exact h.name

/-- What a function captures is in a slot of the function around it. -/
theorem enter (h : ctx.Knows n v) {name : Bytes} {params : List Bytes} (hname : name ≠ n)
    (hn : n ∉ params) (free : List Bytes) :
    (ctx.enter name params ((capturedBy ctx name free).map Prod.fst)).Knows n v where
  env := h.env
  slot := by
    refine Option.not_isSome_iff_eq_none.1 fun hs => ?_
    rcases Frame.isSome_slot?_ofFunction.1 hs with hs | hs
    · exact hn hs
    · obtain ⟨c, hc, rfl⟩ := List.mem_map.1 hs
      have hslot := (Lower.mem_capturedBy.1 hc).2.2
      rw [h.slot] at hslot
      cases hslot
  name := by
    rw [Context.enter, Frame.ofFunction, Frame.name_bind]
    exact fun _ => hname

end Context.Knows

/-! ### Names that are captured -/

namespace Expr

variable {n : Bytes} {v : Value}

/-- Two lists of names agree but for `n`. -/
def Apart (n : Bytes) (xs ys : List Bytes) : Prop :=
  xs.filter (fun m => m ≠ n) = ys.filter (fun m => m ≠ n)

theorem Apart.mem_iff {xs ys : List Bytes} (h : Apart n xs ys) {m : Bytes} (hm : m ≠ n) :
    m ∈ xs ↔ m ∈ ys := by
  have hmem := congrArg (fun l => m ∈ l) h
  simpa [hm] using hmem

theorem apart_append_self (xs : List Bytes) : Apart n (xs ++ [n]) xs := by
  simp [Apart]

theorem apart_addOnce_self (xs : List Bytes) : Apart n xs (addOnce xs n) := by
  unfold addOnce
  split
  · rfl
  · exact (apart_append_self xs).symm

theorem Apart.addOnce {xs ys : List Bytes} (h : Apart n xs ys) (m : Bytes) :
    Apart n (addOnce xs m) (addOnce ys m) := by
  by_cases hm : m = n
  · subst hm
    exact ((apart_addOnce_self xs).symm.trans h).trans (apart_addOnce_self ys)
  · unfold Expr.addOnce
    by_cases hmem : m ∈ xs
    · rw [if_pos hmem, if_pos ((h.mem_iff hm).1 hmem)]
      exact h
    · rw [if_neg hmem, if_neg fun hy => hmem ((h.mem_iff hm).2 hy)]
      unfold Apart at h ⊢
      rw [List.filter_append, List.filter_append, h]

/-- The two expressions have the same free names but for `n`, in the same order. -/
def FreeApart (n : Bytes) (e e' : Expr) : Prop :=
  ∀ bound found found', Apart n found found' →
    Apart n (collectFree bound found e) (collectFree bound found' e')

theorem apart_collectFreeAll {g : Expr → Expr} {es : List Expr}
    (h : ∀ e ∈ es, FreeApart n (g e) e) (bound : List Bytes) {found found' : List Bytes}
    (hfound : Apart n found found') :
    Apart n (collectFreeAll bound found (es.map g)) (collectFreeAll bound found' es) := by
  induction es generalizing found found' with
  | nil =>
    rw [List.map_nil, collectFreeAll, collectFreeAll]
    exact hfound
  | cons e es ih =>
    rw [List.map_cons, collectFreeAll, collectFreeAll]
    exact ih (fun e' he' => h e' (.tail _ he')) (h e (.head _) bound found found' hfound)

theorem apart_collectFreeValues {g : Expr → Expr} {bs : List (Binding Expr)}
    (h : ∀ b ∈ bs, FreeApart n (g b.value) b.value) (bound : List Bytes)
    {found found' : List Bytes} (hfound : Apart n found found') :
    Apart n (collectFreeValues bound found (bs.map fun b => { b with value := g b.value }))
      (collectFreeValues bound found' bs) := by
  induction bs generalizing found found' with
  | nil =>
    rw [List.map_nil, collectFreeValues, collectFreeValues]
    exact hfound
  | cons b bs ih =>
    rw [List.map_cons, collectFreeValues, collectFreeValues]
    exact ih (fun b' hb' => h b' (.tail _ hb')) (h b (.head _) bound found found' hfound)

theorem freeApart_refl (e : Expr) : FreeApart n e e := by
  have all {es : List Expr} (h : ∀ e ∈ es, FreeApart n e e) (bound : List Bytes)
      {found found' : List Bytes} (hfound : Apart n found found') :
      Apart n (collectFreeAll bound found es) (collectFreeAll bound found' es) := by
    have hes := apart_collectFreeAll (g := id) h bound hfound
    rwa [List.map_id] at hes
  induction e using Expr.induction with
  | literal pos w =>
    intro bound found found' h
    rw [collectFree, collectFree]
    exact h
  | ident pos m =>
    intro bound found found' h
    rw [collectFree, collectFree]
    split
    · exact h
    · exact h.addOnce m
  | call pos fn args ihfn ihargs | apply pos fn args ihfn ihargs =>
    intro bound found found' h
    rw [collectFree, collectFree]
    exact all ihargs bound (ihfn bound found found' h)
  | cond pos test yes no ihtest ihyes ihno =>
    intro bound found found' h
    have hyes := ihyes bound _ _ (ihtest bound found found' h)
    cases no with
    | none =>
      rw [collectFree, collectFree]
      exact hyes
    | some no =>
      rw [collectFree, collectFree]
      exact ihno no rfl bound _ _ hyes
  | lambda pos own params body ih =>
    intro bound found found' h
    rw [collectFree, collectFree]
    exact all ih _ h
  | define pos name value ih | const pos name value ih =>
    intro bound found found' h
    rw [collectFree, collectFree]
    exact ih bound found found' h
  | letIn pos bindings body ihvalues ihbody =>
    intro bound found found' h
    have hvalues := apart_collectFreeValues (g := id) ihvalues bound h
    rw [show bindings.map (fun b => { b with value := id b.value }) = bindings from
      List.map_id bindings] at hvalues
    rw [collectFree, collectFree]
    exact all ihbody _ hvalues
  | block pos body ih | and pos body ih | or pos body ih =>
    intro bound found found' h
    rw [collectFree, collectFree]
    exact all ih bound h

theorem freeApart_inlinedCallee {fn : Expr} (h : FreeApart n (fn.inlined n v) fn) :
    FreeApart n (inlinedCallee n v fn) fn := by
  unfold inlinedCallee
  split
  · exact freeApart_refl fn
  · exact h

theorem freeApart_inlined (e : Expr) : FreeApart n (e.inlined n v) e := by
  have all {es : List Expr} (h : ∀ e ∈ es, FreeApart n (e.inlined n v) e) (bound : List Bytes)
      {found found' : List Bytes} (hfound : Apart n found found') :
      Apart n (collectFreeAll bound found (inlinedAll n v es))
        (collectFreeAll bound found' es) := by
    rw [inlinedAll_eq]
    exact apart_collectFreeAll h bound hfound
  have kept (es : List Expr) (bound : List Bytes) {found found' : List Bytes}
      (hfound : Apart n found found') :
      Apart n (collectFreeAll bound found es) (collectFreeAll bound found' es) := by
    have hes := apart_collectFreeAll (g := id) (fun e (_ : e ∈ es) => freeApart_refl e) bound hfound
    rwa [List.map_id] at hes
  induction e using Expr.induction with
  | literal pos w =>
    rw [inlined]
    exact freeApart_refl _
  | ident pos m =>
    rw [inlined]
    split
    · next hm =>
      intro bound found found' h
      rw [collectFree, collectFree]
      split
      · exact h
      · rw [hm]
        exact h.trans (apart_addOnce_self found')
    · exact freeApart_refl _
  | call pos fn args ihfn ihargs | apply pos fn args ihfn ihargs =>
    intro bound found found' h
    rw [inlined, collectFree, collectFree]
    exact all ihargs bound (freeApart_inlinedCallee ihfn bound found found' h)
  | cond pos test yes no ihtest ihyes ihno =>
    intro bound found found' h
    have hyes := ihyes bound _ _ (ihtest bound found found' h)
    cases no with
    | none =>
      rw [inlined, inlinedElse, collectFree, collectFree]
      exact hyes
    | some no =>
      rw [inlined, inlinedElse, collectFree, collectFree]
      exact ihno no rfl bound _ _ hyes
  | lambda pos own params body ih =>
    intro bound found found' h
    rw [inlined, collectFree, collectFree]
    split
    · exact kept body _ h
    · exact all ih _ h
  | define pos name value ih | const pos name value ih =>
    intro bound found found' h
    rw [inlined, collectFree, collectFree]
    exact ih bound found found' h
  | letIn pos bindings body ihvalues ihbody =>
    intro bound found found' h
    have hvalues := apart_collectFreeValues ihvalues bound h
    rw [inlined, collectFree, collectFree, names_inlinedValues, inlinedValues_eq]
    split
    · exact kept body _ hvalues
    · exact all ihbody _ hvalues
  | block pos body ih | and pos body ih | or pos body ih =>
    intro bound found found' h
    rw [inlined, collectFree, collectFree]
    exact all ih bound h

end Expr

/-- A name without a slot is not captured. -/
theorem Lower.capturedBy_apart {ctx : Context} {n : Bytes} (hslot : ctx.frame.slot? n = none)
    (name : Bytes) {free free' : List Bytes} (h : Expr.Apart n free free') :
    capturedBy ctx name free = capturedBy ctx name free' := by
  -- The order of the captured names decides their slots, so equal sets of names are not enough.
  have hfilter (names : List Bytes) :
      capturedBy ctx name names = capturedBy ctx name (names.filter fun m => m ≠ n) := by
    unfold capturedBy
    rw [List.filterMap_filter]
    congr 1
    funext m
    by_cases hm : m = n
    · rw [hm, hslot]
      simp
    · simp [hm]
  rw [hfilter free, hfilter free', h]

theorem Lower.capturedBy_inlined {ctx : Context} {n : Bytes} {v : Value} (h : ctx.Knows n v)
    (name own : Bytes) (params : List Bytes) (body : List Expr) :
    capturedBy ctx name (Expr.freeNames own params (Expr.inlinedAll n v body)) =
      capturedBy ctx name (Expr.freeNames own params body) := by
  refine capturedBy_apart h.slot name ?_
  rw [Expr.inlinedAll_eq]
  exact Expr.apart_collectFreeAll (fun e _ => Expr.freeApart_inlined e) _ rfl

/-! ### Code -/

namespace Expr

variable {ctx : Context} {n : Bytes} {v : Value}

theorem foldAll?_map {g : Expr → Expr} {es : List Expr}
    (h : ∀ e ∈ es, (g e).fold? ctx = e.fold? ctx) : foldAll? ctx (es.map g) = foldAll? ctx es := by
  induction es with
  | nil => rfl
  | cons e es ih =>
    rw [List.map_cons, foldAll?, foldAll?, h e (.head _), ih fun e' he' => h e' (.tail _ he')]

theorem fold?_call_of_not_isName {pos : Position} {fn : Expr} {args : List Expr}
    (h : fn.isName = false) : (call pos fn args).fold? ctx = none := by
  cases fn with
  | ident place m => cases h
  | _ => rfl

theorem fold?_inlined_call (pos : Position) (fn : Expr) {args : List Expr}
    (hargs : ∀ e ∈ args, (e.inlined n v).fold? ctx = e.fold? ctx) :
    (call pos (inlinedCallee n v fn) (args.map (inlined n v))).fold? ctx =
      (call pos fn args).fold? ctx := by
  rcases inlinedCallee_cases (n := n) (v := v) fn with ⟨place, m, rfl, hfn⟩ | ⟨hfn, hnew, -⟩
  · rw [hfn, fold?, fold?, foldAll?_map hargs, List.length_map]
  · rw [fold?_call_of_not_isName hfn, fold?_call_of_not_isName hnew]

theorem fold?_inlined (h : ctx.Knows n v) (e : Expr) :
    (e.inlined n v).fold? ctx = e.fold? ctx := by
  induction e using Expr.induction with
  | ident pos m =>
    rw [inlined]
    split
    · next hm => rw [fold?, fold?, hm, h.resolve]
    · rfl
  | call pos fn args _ ihargs =>
    rw [inlined_call]
    exact fold?_inlined_call pos fn ihargs
  | cond pos test yes no ihtest ihyes ihno =>
    cases no with
    | none => rw [inlined, inlinedElse, fold?, fold?, ihtest, ihyes]
    | some no => rw [inlined, inlinedElse, fold?, fold?, ihtest, ihyes, ihno no rfl]
  | _ => rfl

end Expr

namespace Lower

variable {ctx : Context} {n : Bytes} {v : Value}

theorem isNegation_inlinedCallee (fn : Expr) (argc : Nat) :
    isNegation ctx (Expr.inlinedCallee n v fn) argc = isNegation ctx fn argc := by
  have hfalse {e : Expr} (he : e.isName = false) : isNegation ctx e argc = false := by
    cases e with
    | ident place m => cases he
    | _ => rfl
  rcases Expr.inlinedCallee_cases (n := n) (v := v) fn with ⟨place, m, rfl, hfn⟩ | ⟨hfn, hnew, -⟩
  · rw [hfn]
  · rw [hfalse hfn, hfalse hnew]

theorem callee_inlinedCallee (fn : Expr) :
    callee ctx (Expr.inlinedCallee n v fn) = callee ctx fn := by
  have hcomputed {e : Expr} (he : e.isName = false) : callee ctx e = pure .computed := by
    cases e with
    | ident place m => cases he
    | _ => rfl
  rcases Expr.inlinedCallee_cases (n := n) (v := v) fn with ⟨place, m, rfl, hfn⟩ | ⟨hfn, hnew, -⟩
  · rw [hfn]
  · rw [hcomputed hfn, hcomputed hnew]

theorem negated_inlined (e : Expr) : negated ctx (e.inlined n v) = negated ctx e := by
  induction e using Expr.induction with
  | ident pos m =>
    rw [Expr.inlined]
    split <;> rfl
  | call pos fn args _ ihargs =>
    have hfirst : negatedFirst ctx (args.map (Expr.inlined n v)) = negatedFirst ctx args := by
      cases args with
      | nil => rfl
      | cons e es => rw [List.map_cons, negatedFirst, negatedFirst, ihargs e (.head _)]
    rw [Expr.inlined_call, negated, negated, hfirst, List.length_map, isNegation_inlinedCallee]
  | _ => rfl

/-- The two expressions have the same code, wherever they stand in the context. -/
def Interchangeable (ctx : Context) (e e' : Expr) : Prop :=
  ∀ use base depth, expr ctx use base depth e = expr ctx use base depth e'

variable {g : Expr → Expr} {es : List Expr}

theorem sequence_map (h : ∀ e ∈ es, Interchangeable ctx (g e) e) (use : Use) (base depth : Nat) :
    sequence ctx use base depth (es.map g) = sequence ctx use base depth es := by
  induction es generalizing base with
  | nil => rfl
  | cons e es ih =>
    have hrest base := ih (fun e' he' => h e' (.tail _ he')) base
    cases es with
    | nil =>
      rw [List.map_cons, List.map_nil, sequence, sequence]
      exact h e (.head _) use base depth
    | cons e' es =>
      rw [List.map_cons] at hrest
      rw [List.map_cons, List.map_cons, sequence, sequence, h e (.head _)]
      · exact bind_congr fun f => by rw [hrest]
      · intro hnil
        cases hnil
      · intro hnil
        cases hnil

theorem arguments_map (h : ∀ e ∈ es, Interchangeable ctx (g e) e) (base depth : Nat) :
    arguments ctx base depth (es.map g) = arguments ctx base depth es := by
  induction es generalizing base depth with
  | nil => rfl
  | cons e es ih =>
    have hrest base depth := ih (fun e' he' => h e' (.tail _ he')) base depth
    rw [List.map_cons, arguments, arguments, h e (.head _)]
    exact bind_congr fun f => by rw [hrest]

theorem spread_map (h : ∀ e ∈ es, Interchangeable ctx (g e) e) (base depth : Nat) :
    spread ctx base depth (es.map g) = spread ctx base depth es := by
  induction es generalizing base depth with
  | nil => rfl
  | cons e es ih =>
    have hrest base depth := ih (fun e' he' => h e' (.tail _ he')) base depth
    cases es with
    | nil =>
      rw [List.map_cons, List.map_nil, spread, spread]
      exact h e (.head _) _ base depth
    | cons e' es =>
      rw [List.map_cons] at hrest
      rw [List.map_cons, List.map_cons, spread, spread, h e (.head _)]
      · exact bind_congr fun f => by rw [hrest]
      · intro hnil
        cases hnil
      · intro hnil
        cases hnil

theorem operands_map (h : ∀ e ∈ es, Interchangeable ctx (g e) e) (use : Use) (base depth : Nat) :
    operands ctx use base depth (es.map g) = operands ctx use base depth es := by
  induction es generalizing base with
  | nil => rfl
  | cons e es ih =>
    have hrest base := ih (fun e' he' => h e' (.tail _ he')) base
    cases es with
    | nil =>
      rw [List.map_cons, List.map_nil, operands, operands, h e (.head _)]
    | cons e' es =>
      rw [List.map_cons] at hrest
      rw [List.map_cons, List.map_cons, operands, operands, h e (.head _)]
      · exact bind_congr fun f => by rw [hrest]
      · intro hnil
        cases hnil
      · intro hnil
        cases hnil

theorem operandAt_map (h : ∀ e ∈ es, Interchangeable ctx (g e) e) (use : Use) (base depth i : Nat) :
    operandAt ctx use base depth i (es.map g) = operandAt ctx use base depth i es := by
  induction es generalizing i with
  | nil => rfl
  | cons e es ih =>
    cases i with
    | zero =>
      rw [List.map_cons, operandAt, operandAt]
      exact h e (.head _) use base depth
    | succ i =>
      rw [List.map_cons, operandAt, operandAt]
      exact ih (fun e' he' => h e' (.tail _ he')) i

theorem values_map {bs : List (Binding Expr)}
    (h : ∀ b ∈ bs, Interchangeable ctx (g b.value) b.value) (base depth : Nat) :
    values ctx base depth (bs.map fun b => { b with value := g b.value }) =
      values ctx base depth bs := by
  induction bs generalizing base depth with
  | nil => rfl
  | cons b bs ih =>
    have hrest base depth := ih (fun b' hb' => h b' (.tail _ hb')) base depth
    rw [List.map_cons, values, values, h b (.head _)]
    split
    · rfl
    · exact bind_congr fun f => by rw [hrest]

theorem function_congr {pos : Position} {name : Bytes} {params free free' : List Bytes}
    {body body' : Context → Nat → Lower Fragment}
    (hfree : capturedBy ctx name free = capturedBy ctx name free')
    (hbody : ∀ slots,
      body (ctx.enter name params ((capturedBy ctx name free').map Prod.fst)) slots =
        body' (ctx.enter name params ((capturedBy ctx name free').map Prod.fst)) slots) :
    function ctx pos name params free body = function ctx pos name params free' body' := by
  unfold function
  rw [hfree]
  simp only [hbody]

theorem loadName_of_knows (h : ctx.Knows n v) (pos : Position) :
    loadName ctx pos n = load ctx pos v := by
  unfold loadName Lower.resolve
  rw [h.lookup]
  rfl

theorem interchangeable_inlinedCallee {fn : Expr} (h : Interchangeable ctx (fn.inlined n v) fn) :
    Interchangeable ctx (fn.inlinedCallee n v) fn := by
  rcases Expr.inlinedCallee_cases (n := n) (v := v) fn with ⟨place, m, rfl, hfn⟩ | ⟨-, -, hfn⟩
  · rw [hfn]
    exact fun _ _ _ => rfl
  · rw [hfn]
    exact h

/-- The value of a constant has the code of its name. -/
theorem interchangeable_inlined (h : ctx.Knows n v) (e : Expr) :
    Interchangeable ctx (e.inlined n v) e := by
  -- Inside functions and `let` bodies that bind the name nothing is written for it, so that the
  -- context knows the constant wherever the induction goes.
  induction e using Expr.induction generalizing ctx with
  | literal pos w => exact fun _ _ _ => rfl
  | ident pos m =>
    rw [Expr.inlined]
    split
    · next hm =>
      intro use base depth
      rw [expr, expr, hm, loadName_of_knows h]
    · exact fun _ _ _ => rfl
  | call pos fn args ihfn ihargs =>
    intro use base depth
    have hfn := interchangeable_inlinedCallee (ihfn h)
    have hall : ∀ e ∈ args, Interchangeable ctx (e.inlined n v) e := fun e he => ihargs e he h
    have hfolds : ∀ e ∈ args, (e.inlined n v).fold? ctx = e.fold? ctx :=
      fun e _ => Expr.fold?_inlined h e
    have hknown : (args.map (Expr.inlined n v)).map (fun e => e.fold? ctx) =
        args.map fun e => e.fold? ctx := by
      rw [List.map_map]
      exact List.map_congr_left hfolds
    rw [Expr.inlined_call, expr, expr]
    simp only [List.length_map, isNegation_inlinedCallee, callee_inlinedCallee,
      Expr.fold?_inlined_call pos fn hfolds, hknown, arguments_map hall, operandAt_map hall,
      hfn _ _ _, Expr.pos_inlinedCallee]
  | apply pos fn args ihfn ihargs =>
    intro use base depth
    have hfn := interchangeable_inlinedCallee (ihfn h)
    have hall : ∀ e ∈ args, Interchangeable ctx (e.inlined n v) e := fun e he => ihargs e he h
    rw [Expr.inlined_apply, expr, expr]
    simp only [List.length_map, List.isEmpty_map, callee_inlinedCallee, spread_map hall, hfn _ _ _]
  | cond pos test yes no ihtest ihyes ihno =>
    intro use base depth
    have hno (use : Use) (base depth : Nat) :
        otherwise ctx use base depth (Expr.inlinedElse n v no) =
          otherwise ctx use base depth no := by
      cases no with
      | none => rfl
      | some no =>
        rw [Expr.inlinedElse, otherwise, otherwise]
        exact ihno no rfl h use base depth
    rw [Expr.inlined, expr, expr]
    simp only [Expr.fold?_inlined h, negated_inlined, ihtest h _ _ _, ihyes h _ _ _, hno]
  | lambda pos own params body ih =>
    intro use base depth
    rw [Expr.inlined]
    split
    · rfl
    · next hn =>
      obtain ⟨hown, hparams⟩ := not_or.1 hn
      rw [expr, expr]
      refine congrArg _ (function_congr (capturedBy_inlined h own own params body) fun slots => ?_)
      rw [Expr.inlinedAll_eq]
      exact sequence_map (fun e he => ih e he (h.enter hown hparams _)) _ _ _
  | define pos name value ih | const pos name value ih =>
    intro use base depth
    rw [Expr.inlined, expr, expr]
  | letIn pos bindings body ihvalues ihbody =>
    intro use base depth
    rw [Expr.inlined, expr, expr]
    simp only [Expr.names_inlinedValues]
    rw [Expr.inlinedValues_eq, values_map fun b hb => ihvalues b hb h]
    split
    · rfl
    · next hn =>
      rw [Expr.inlinedAll_eq]
      simp only [sequence_map fun e he => ihbody e he (h.bind hn depth)]
  | block pos body ih =>
    intro use base depth
    rw [Expr.inlined, expr, expr, Expr.inlinedAll_eq, sequence_map fun e he => ih e he h]
  | and pos body ih | or pos body ih =>
    intro use base depth
    have hpos : (body.map (Expr.inlined n v)).map Expr.pos = body.map Expr.pos := by
      rw [List.map_map]
      exact List.map_congr_left fun e _ => Expr.pos_inlined e
    rw [Expr.inlined, expr, expr, Expr.inlinedAll_eq, List.isEmpty_map, hpos]
    simp only [operands_map fun e he => ih e he h]

end Lower

/-! ### Programs -/

namespace Compilation

open Lower

variable {ctx : Context} {n : Bytes} {v : Value}

@[simp] theorem declaredName?_inlined (e : Expr) :
    declaredName? (e.inlined n v) = declaredName? e := by
  cases e with
  | ident pos m =>
    rw [Expr.inlined]
    split <;> rfl
  | _ => rfl

theorem arityOf_inlined (e : Expr) : arityOf (e.inlined n v) = arityOf e := by
  cases e with
  | ident pos m =>
    rw [Expr.inlined]
    split <;> rfl
  | _ => rfl

theorem define_inlined (h : ctx.Knows n v) {name : Bytes} (hname : name ≠ n) (pos : Position)
    (value : Expr) : define ctx pos name (value.inlined n v) = define ctx pos name value := by
  have hsame := interchangeable_inlined h value
  cases value with
  | lambda place own params body =>
    refine bind_congr fun i => ?_
    rw [Expr.inlined]
    dsimp only
    split
    · rfl
    · next hn =>
      have hparams := (not_or.1 hn).2
      rw [function_congr (capturedBy_inlined h name own params body) fun slots => ?_]
      rw [Expr.inlinedAll_eq]
      exact sequence_map (fun e _ => interchangeable_inlined (h.enter hname hparams _) e) _ _ _
  | ident place m =>
    rw [Expr.inlined] at hsame ⊢
    by_cases hm : m = n
    · rw [if_pos hm] at hsame ⊢
      exact bind_congr fun i => congrArg (· >>= _) (hsame _ _ _)
    · rw [if_neg hm]
  | _ => exact bind_congr fun i => congrArg (· >>= _) (hsame _ _ _)

/-- A value that is not constant is refused with other words. -/
theorem yields_const_inlined (h : ctx.Knows n v) {pos : Position} {name : Bytes} {value : Expr}
    {r : Fragment × Value} {d d' : Draft} :
    Yields (const ctx pos name (value.inlined n v)) d r d' ↔
      Yields (const ctx pos name value) d r d' := by
  unfold const
  rw [Expr.fold?_inlined h, Expr.pos_inlined]
  split
  · exact ⟨fun hr => absurd hr not_yields_refuse, fun hr => absurd hr not_yields_refuse⟩
  · rfl

theorem yields_formCode_inlined (h : ctx.Knows n v) {e : Expr} (hname : declaredName? e ≠ some n)
    {r : Fragment × Environment} {d d' : Draft} :
    Yields (formCode ctx (e.inlined n v)) d r d' ↔ Yields (formCode ctx e) d r d' := by
  cases hdecl : declaredName? e with
  | none =>
    rw [formCode_of_declaredName? hdecl,
      formCode_of_declaredName? ((declaredName?_inlined e).trans hdecl),
      interchangeable_inlined h e]
  | some m =>
    cases e with
    | define pos name value =>
      have hne : name ≠ n := fun heq => hname (congrArg some heq)
      rw [Expr.inlined, formCode, formCode, define_inlined h hne, arityOf_inlined]
    | const pos name value =>
      rw [Expr.inlined, formCode, formCode, yields_bind, yields_bind]
      simp only [yields_const_inlined h]
    | _ => cases hdecl

theorem form_inlined (h : ctx.Knows n v) {e : Expr} (hname : declaredName? e ≠ some n) {img : Image}
    {env : Environment} :
    (form ctx (e.inlined n v)).1 = .ok (img, env) ↔ (form ctx e).1 = .ok (img, env) := by
  simp only [form_eq_ok, yields_formCode_inlined h hname]

theorem declarations_inlined (env : Environment) (acc : List (Bytes × Nat)) (index : Nat)
    (forms : List Expr) :
    declarations env acc index (forms.map (Expr.inlined n v)) =
      declarations env acc index forms := by
  induction forms generalizing acc index with
  | nil => rfl
  | cons e rest ih =>
    rw [List.map_cons, declarations, declarations, declaredName?_inlined, Expr.pos_inlined]
    simp only [ih]

theorem formsFrom_inlined {options : CompileOptions} {declared : List (Bytes × Nat)}
    {env : Environment} {index : Nat} {forms : List Expr} {c : Compilation}
    (hn : env.find? n = some (.constant v)) (hforms : n ∉ introduced forms) :
    (formsFrom options declared env index (forms.map (Expr.inlined n v))).1 = .ok c ↔
      (formsFrom options declared env index forms).1 = .ok c := by
  induction forms generalizing env index c with
  | nil => rfl
  | cons e rest ih =>
    have hname : declaredName? e ≠ some n := by
      intro hname
      rw [introduced_cons_of_some hname] at hforms
      exact hforms (.head _)
    have hrest : n ∉ introduced rest := by
      intro hmem
      refine hforms ?_
      cases hdecl : declaredName? e with
      | none =>
        rw [introduced_cons_of_none hdecl]
        exact hmem
      | some m =>
        rw [introduced_cons_of_some hdecl]
        exact .tail _ hmem
    have hknows : Context.Knows { options, env, declared, form := index } n v :=
      ⟨hn, rfl, fun hne => absurd rfl hne⟩
    have hnext {img : Image} {env₁ : Environment}
        (hform : (form { options, env, declared, form := index } e).1 = .ok (img, env₁)) :
        env₁.find? n = some (.constant v) := (find?_form_of_ne hform hname).trans hn
    rw [List.map_cons, formsFrom_cons, formsFrom_cons]
    simp only [form_inlined hknows hname]
    constructor
    · rintro ⟨img, env₁, c₁, hform, hforms, rfl⟩
      exact ⟨img, env₁, c₁, hform, (ih (hnext hform) hrest).1 hforms, rfl⟩
    · rintro ⟨img, env₁, c₁, hform, hforms, rfl⟩
      exact ⟨img, env₁, c₁, hform, (ih (hnext hform) hrest).2 hforms, rfl⟩

/-- A program is compiled to the same code if the value of a constant is written for its name. -/
theorem compile_inlined {env : Environment} (hn : env.find? n = some (.constant v))
    (options : CompileOptions) (forms : List Expr) (c : Compilation) :
    compile options env (forms.map (Expr.inlined n v)) = .ok c ↔
      compile options env forms = .ok c := by
  simp only [compile_eq_ok, declarations_inlined]
  refine exists_congr fun declared => and_congr_right fun hd => formsFrom_inlined hn fun hmem => ?_
  rw [(fresh_of_declarations hd).absent n hmem] at hn
  cases hn

end Compilation

end StackLisp
