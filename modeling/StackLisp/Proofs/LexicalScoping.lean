import StackLisp.Proofs.Rewriting
import StackLisp.Proofs.Visibility

/-! Compiled code reads the variables that lexical scoping says, in every function of an image. -/
namespace StackLisp

open Evaluation (Scope visible callee rewriting? kept?)
open Fragment (op)
open Lower (Shortcut Yields shortcut?)

theorem Lower.Shortcut.Realizes.index_eq {s : Shortcut} {r : Nat × Option Evaluation.Rest}
    (h : s.Realizes r) : s.index = r.1 := by
  unfold Realizes at h
  grind [index]

/-- A shortcut computes the argument that is kept. -/
theorem Evaluation.kept?_eq (b : Builtin) (known : List (Option Value)) :
    kept? b known = (shortcut? b known).map Shortcut.index := by
  unfold kept?
  split
  · next hid =>
    rw [shortcut?, hid]
    rfl
  · next hid =>
    have hother (h : b.primitive? = some .identity) : known.length = 1 := absurd h hid
    have hmatch := Shortcut.matches_rewriting hother
    revert hmatch
    cases shortcut? b known <;> cases rewriting? b known <;> intro hmatch
    · rfl
    · cases hmatch
    · cases hmatch
    · exact congrArg some (Shortcut.Realizes.index_eq hmatch).symm

/-- The reads of a part of a program. -/
def Part.reads (outer : Context) (scope : Scope Variable) (depth : Nat) : Part → List Read
  | .expr e | .bare e => e.reads outer scope depth
  | .otherwise none => []
  | .otherwise (some e) => e.reads outer scope depth
  | .sequence es | .operands _ es => Expr.readsAll outer scope depth es
  | .arguments es | .spread es => Expr.readsEach outer scope depth es
  | .operandAt i es => Expr.readsAt outer scope depth i es
  | .values bs => Expr.readsValues outer scope depth bs
  | .function pos name params _ body =>
    (Expr.lambda pos name params body).reads outer scope depth

namespace Expr

variable {outer : Context} {scope : Scope Variable} {depth : Nat} {pos : Position}

attribute [local simp] reads

section builtins
variable {fn : Expr} {args : List Expr} {b : Builtin} (hb : callee outer scope fn = .builtin b)
  (hf : (call pos fn args).fold? (visible outer scope) = none)
include hb hf

theorem reads_shortcut {s : Shortcut}
    (hs : shortcut? b (args.map fun e => e.fold? (visible outer scope)) = some s) :
    (call pos fn args).reads outer scope depth = readsAt outer scope depth s.index args := by
  simp [hb, hf, Evaluation.kept?_eq, hs]

theorem reads_plain
    (hs : shortcut? b (args.map fun e => e.fold? (visible outer scope)) = none) :
    (call pos fn args).reads outer scope depth = readsEach outer scope depth args := by
  simp [hb, hf, Evaluation.kept?_eq, hs]

end builtins

theorem reads_apply {fn : Expr} {args : List Expr} (h : callee outer scope fn ≠ .self) :
    (apply pos fn args).reads outer scope depth =
      fn.reads outer scope depth ++ readsEach outer scope (depth + 1) args := by
  rw [reads]
  split
  · next hself => exact absurd hself h
  · rfl

section cond
variable {test yes : Expr} {no : Option Expr}

theorem reads_condTrue (h : test.fold? (visible outer scope) = some (.bool true)) :
    (cond pos test yes no).reads outer scope depth = yes.reads outer scope depth := by
  cases no <;> simp [h]

theorem reads_condFalse (h : test.fold? (visible outer scope) = some (.bool false)) :
    (cond pos test yes no).reads outer scope depth =
      (Part.otherwise no).reads outer scope depth := by
  cases no <;> simp [h, Part.reads]

theorem reads_cond (h : ∀ b, test.fold? (visible outer scope) ≠ some (.bool b)) :
    (cond pos test yes no).reads outer scope depth =
      test.reads outer scope depth ++ yes.reads outer scope depth
        ++ (Part.otherwise no).reads outer scope depth := by
  cases no with
  | none =>
    rw [reads]
    split
    · next ht => exact absurd ht (h true)
    · next ht => exact absurd ht (h false)
    · simp [Part.reads]
  | some no =>
    rw [reads]
    split
    · next ht => exact absurd ht (h true)
    · next ht => exact absurd ht (h false)
    · rfl

end cond

theorem readsAt_of_getElem? {es : List Expr} {i : Nat} {e : Expr} (h : es[i]? = some e) :
    readsAt outer scope depth i es = e.reads outer scope depth := by
  induction es generalizing i with
  | nil => simp at h
  | cons e' es ih =>
    cases i with
    | zero => rw [readsAt, show e' = e by simpa using h]
    | succ i => exact ih (by simpa using h)

theorem readsAt_of_none {es : List Expr} {i : Nat} (h : es[i]? = none) :
    readsAt outer scope depth i es = [] := by
  induction es generalizing i with
  | nil => rw [readsAt]
  | cons e' es ih =>
    cases i with
    | zero => simp at h
    | succ i => exact ih (by simpa using h)

theorem resolve_visible (outer : Context) {n : Bytes} {v : Variable}
    (h : scope.lookup n = some v) : ∃ s, (visible outer scope).resolve n = .slot s := by
  have hsome : ((visible outer scope).frame.slot? n).isSome = true := by
    rw [isSome_slot?_visible, h]
    rfl
  obtain ⟨s, hs⟩ := Option.isSome_iff_exists.1 hsome
  exact ⟨s, by rw [Context.resolve, hs]⟩

/-- What is known at compile time reads nothing. -/
theorem reads_of_fold? {e : Expr} {v : Value} (h : e.fold? (visible outer scope) = some v) :
    e.reads outer scope depth = [] := by
  induction e using Expr.induction generalizing v with
  | literal => rw [reads]
  | ident place n =>
    rw [reads]
    cases hn : scope.lookup n with
    | none => rfl
    | some x =>
      obtain ⟨s, hs⟩ := resolve_visible outer hn
      simp [fold?, hs] at h
  | call place fn args _ _ =>
    obtain ⟨b, hb⟩ : ∃ b, callee outer scope fn = .builtin b := by
      cases fn with
      | ident _ n =>
        rw [fold?] at h
        split at h
        · next b hb => exact ⟨b, by rw [callee, Context.lookup, hb]; rfl⟩
        · cases h
      | _ => cases h
    rw [reads, hb]
    simp only [h]
  | cond place test yes no _ ihyes ihno =>
    cases no with
    | none =>
      rw [fold?] at h
      split at h
      · next ht => rw [reads_condTrue ht, ihyes h]
      · next ht => rw [reads_condFalse ht, Part.reads]
      · cases h
    | some no =>
      rw [fold?] at h
      split at h
      · next ht => rw [reads_condTrue ht, ihyes h]
      · next ht => rw [reads_condFalse ht, Part.reads, ihno no rfl h]
      · cases h
  | _ => cases h

/-- A negation is not cut short. -/
theorem shortcut?_not {b : Builtin} (hb : b.primitive? = some .not)
    (known : List (Option Value)) : shortcut? b known = none := by
  rw [shortcut?, hb]

/-- A negation reads what its operand reads. -/
theorem reads_negation {fn x : Expr} (h : Evaluation.isNot outer scope fn = true) :
    (call pos fn [x]).reads outer scope depth = x.reads outer scope depth := by
  unfold Evaluation.isNot at h
  split at h
  · next b hb =>
    have hnot : b.primitive? = some .not := by simpa using h
    cases hf : (call pos fn [x]).fold? (visible outer scope) with
    | none =>
      rw [reads_plain hb hf (shortcut?_not hnot _)]
      simp [readsEach]
    | some v =>
      -- The value of a negation is known only if that of its operand is.
      obtain ⟨w, hw⟩ : ∃ w, x.fold? (visible outer scope) = some w := by
        cases fn with
        | ident _ n =>
          cases hx : x.fold? (visible outer scope) with
          | some w => exact ⟨w, rfl⟩
          | none =>
            rw [fold?, foldAll?, hx] at hf
            grind
        | _ => cases hf
      rw [reads_of_fold? hf, reads_of_fold? hw]
  · cases h

end Expr

/-- The names that a function may capture are all those of its body that are local around it, and
none of its parameters. -/
def Part.Captures (frame : Frame) : Part → Prop
  | .function pos name params free body =>
    (∀ n ∈ free, n ∉ params) ∧
      ∀ n, (Expr.lambda pos [] params body).Free n → (frame.slot? n).isSome →
        n ∈ free ∧ n ≠ name
  | _ => True

/-- The tracer is at a point of a function where the draft is `d` and `height` slots are in use,
of which `depth` are above the parameters and the captured values. -/
structure Tracer.At (σ : Tracer) (img : Image) (d : Draft) (ctx : Context) (height : Nat)
    (outer : Context) (depth : Nat) : Prop where
  pool : d.pool <+: σ.pool
  functions : d.functions <+: img.functions
  nested : ∀ j < d.functions.length, σ.nested j = img.readsOf j
  alike : outer.Alike ctx
  above : ∀ i, σ.inSlot (height + i) = { place := .above (depth + i) }

namespace Tracer.At

variable {σ : Tracer} {img : Image} {d d' : Draft} {ctx outer : Context} {height depth : Nat}

theorem before (h : σ.At img d' ctx height outer depth) (hd : d.Extends d') :
    σ.At img d ctx height outer depth where
  pool := hd.pool.trans h.pool
  functions := hd.functions.trans h.functions
  nested j hj := h.nested j (Nat.lt_of_lt_of_le hj hd.functions.length_le)
  alike := h.alike
  above := h.above

theorem bind (h : σ.At img d ctx height outer depth) (names : List Bytes) (k : Nat) :
    σ.At img d (ctx.bind height names) (height + k) outer (depth + k) where
  pool := h.pool
  functions := h.functions
  nested := h.nested
  alike := ⟨h.alike.options, h.alike.env, h.alike.declared, h.alike.form,
    h.alike.name.trans (Frame.name_bind _ _ _).symm, h.alike.topLevel⟩
  above i := by rw [Nat.add_assoc, Nat.add_assoc, h.above]

theorem push (h : σ.At img d ctx height outer depth) :
    σ.At img d ctx (height + 1) outer (depth + 1) :=
  h.bind [] 1

/-- At the start of a form. -/
theorem start {f : Fragment} :
    ((⟨d.functions ++ [Compilation.entry ctx f d]⟩ : Image).tracer d.functions.length
      (Compilation.entry ctx f d) []).At ⟨d.functions ++ [Compilation.entry ctx f d]⟩ d ctx 0
      ctx 0 where
  pool := List.prefix_rfl
  functions := List.prefix_append _ _
  nested j hj := by
    funext vs
    exact if_pos hj
  alike := ⟨rfl, rfl, rfl, rfl, rfl, rfl⟩
  above i := by simp [Image.tracer, Compilation.entry, Variable.inSlot]

/-- At the start of a function that is completed next. -/
theorem enter {pos : Position} {name : Bytes} {params : List Bytes}
    {captured : List (Bytes × Nat)} {b : Fragment} {inner : Draft} (vs : List Variable)
    (halike : outer.Alike ctx) (hlen : vs.length = captured.length)
    (hfunctions : inner.functions ++ [Lower.finished ctx pos name params captured.length b inner]
      <+: img.functions) :
    (img.tracer inner.functions.length
        (Lower.finished ctx pos name params captured.length b inner) vs).At img inner
      (ctx.enter name params (captured.map Prod.fst)) (params.length + captured.length)
      (outer.enter name [] []) 0 where
  pool := List.prefix_rfl
  functions := (List.prefix_append _ _).trans hfunctions
  nested j hj := by
    funext vs
    exact if_pos hj
  alike := ⟨halike.options, halike.env, halike.declared, halike.form,
    (Frame.name_bind { name, params := params.length } _ _).symm, rfl⟩
  above i := by
    rw [← hlen, Nat.zero_add]
    exact Variable.inSlot_above

end Tracer.At

namespace Emits

variable {σ : Tracer} {img : Image} {ctx outer : Context} {scope : Scope Variable} {d d' : Draft}
  {height depth : Nat}

/-- The code of a part reads the variables that the part reads. -/
theorem reads {use : Use} {base : Nat} {part : Part} {f : Fragment}
    (h : Emits ctx use base height part d f d') (hat : σ.At img d' ctx height outer depth)
    (hres : ∀ e ∈ part.exprs, e.Resolved ctx.frame σ.inSlot scope)
    (hcap : part.Captures ctx.frame) : f.Reads σ (part.reads outer scope depth) := by
  induction h generalizing σ outer scope depth with
  | marked _ _ ih => exact ih hat hres trivial
  | negation hneg _ ih =>
    -- Only the operand has code, also where the value of the negation is known.
    obtain ⟨hfn, hargs⟩ := Expr.Resolved.call hres
    have hx := ih hat hargs trivial
    obtain ⟨x, rfl⟩ := List.length_eq_one_iff.1 (Lower.isNegation_argc hneg)
    rw [Part.reads, Expr.reads_negation ((hfn.isNot hat.alike).trans hneg)]
    exact hx
  | literal hy => exact hy.load_reads hat.pool
  | ident hy =>
    have hname := hy.loadName_reads hat.pool
    rwa [← show _ = _ from (hres _ (.head _)).agrees _ .ident] at hname
  | callSelf _ hc _ _ ih =>
    obtain ⟨hfn, hargs⟩ := Expr.Resolved.call hres
    rw [Part.reads, Expr.reads, hfn.callee hat.alike hc]
    refine (ih hat hargs trivial).append_silent ?_
    split <;> exact Fragment.reads_op rfl rfl
  | callNamed _ hc _ hi ha ih =>
    obtain ⟨hfn, hargs⟩ := Expr.Resolved.call hres
    rw [Part.reads, Expr.reads, hfn.callee hat.alike hc]
    have hconst := (ha.grows.pool.trans hat.pool).getElem?_eq_some hi.interned.1
    exact (ih hat hargs trivial).append_silent (Lower.reads_constant rfl hconst)
  | callFolded _ _ _ hf hy =>
    have hfold := (hres _ (.head _)).fold? hat.alike
    rw [Part.reads, Expr.reads_of_fold? (hfold.trans hf)]
    exact hy.load_reads hat.pool
  | callOperand _ hc _ hf hs _ ih =>
    obtain ⟨hb, hfold, hknown⟩ := Expr.Resolved.builtin hres hat.alike hc hf
    rw [Part.reads, Expr.reads_shortcut hb hfold (hknown ▸ hs)]
    exact ih hat (Expr.Resolved.call hres).2 trivial
  | callUnary _ hc _ hf hs hi ih =>
    obtain ⟨hb, hfold, hknown⟩ := Expr.Resolved.builtin hres hat.alike hc hf
    rw [Part.reads, Expr.reads_shortcut hb hfold (hknown ▸ hs)]
    have hread := ih hat (Expr.Resolved.call hres).2 trivial
    exact (hread.pushed (hi.ends rfl)).append_silent (Lower.reads_callBuiltin _ _)
  | callStep _ hc _ hf hs _ ih =>
    obtain ⟨hb, hfold, hknown⟩ := Expr.Resolved.builtin hres hat.alike hc hf
    rw [Part.reads, Expr.reads_shortcut hb hfold (hknown ▸ hs)]
    have hread := ih hat (Expr.Resolved.call hres).2 trivial
    rcases Lower.shortcut?_step hs with rfl | rfl <;>
      exact hread.append_silent (Fragment.reads_op rfl rfl)
  | callPlain _ hc _ hf hs _ ih =>
    obtain ⟨hb, hfold, hknown⟩ := Expr.Resolved.builtin hres hat.alike hc hf
    rw [Part.reads, Expr.reads_plain hb hfold (hknown ▸ hs)]
    have hread := ih hat (Expr.Resolved.call hres).2 trivial
    exact hread.append_silent (Lower.reads_callBuiltin _ _)
  | callComputed _ hc hf ha ih₁ ih₂ =>
    obtain ⟨hfn, hargs⟩ := Expr.Resolved.call hres
    rw [Part.reads, Expr.reads, hfn.callee hat.alike hc]
    have hread := ih₁ (hat.before ha.grows) (by simpa [Part.exprs] using hfn) trivial
    exact ((hread.pushed (hf.ends rfl)).append (ih₂ hat.push hargs trivial)).append_silent
      (Fragment.reads_op rfl rfl)
  | applySelf _ _ hc _ _ ih =>
    obtain ⟨hfn, hargs⟩ := Expr.Resolved.apply hres
    rw [Part.reads, Expr.reads, hfn.callee hat.alike hc]
    refine (ih hat hargs trivial).append_silent ?_
    split <;> exact Fragment.reads_op rfl rfl
  | applyComputed _ _ hc hne hf ha ih₁ ih₂ =>
    obtain ⟨hfn, hargs⟩ := Expr.Resolved.apply hres
    have hread := ih₁ (hat.before ha.grows) (by simpa [Part.exprs] using hfn) trivial
    rw [Part.reads, Expr.reads_apply (hfn.callee hat.alike hc ▸ hne)]
    exact ((hread.pushed (hf.ends rfl)).append (ih₂ hat.push hargs trivial)).append_silent
      (Fragment.reads_op rfl rfl)
  | condTrue hf _ ih =>
    obtain ⟨htest, hyes, -⟩ := Expr.Resolved.cond hres
    rw [Part.reads, Expr.reads_condTrue ((htest.fold? hat.alike).trans hf)]
    exact ih hat (by simpa [Part.exprs] using hyes) trivial
  | condFalse hf _ ih =>
    obtain ⟨htest, -, hno⟩ := Expr.Resolved.cond hres
    rw [Part.reads, Expr.reads_condFalse ((htest.fold? hat.alike).trans hf)]
    exact ih hat hno trivial
  | condTail hf ht hy _ _ hn ih₁ ih₂ ih₃ =>
    obtain ⟨htest, hyes, hno⟩ := Expr.Resolved.cond hres
    rw [Part.reads, Expr.reads_cond (htest.fold? hat.alike ▸ hf)]
    have hat₂ := hat.before hn.grows
    have htest' := ih₁ (hat₂.before hy.grows) (by simpa [Part.exprs] using htest) trivial
    have hyes' := ih₂ hat₂ (by simpa [Part.exprs] using hyes) trivial
    exact ((htest'.append_silent (Lower.reads_branch _ _)).append hyes'.returning).append
      (ih₃ hat hno trivial)
  | condValue _ hf ht hy _ _ hn _ ih₁ ih₂ ih₃ =>
    obtain ⟨htest, hyes, hno⟩ := Expr.Resolved.cond hres
    rw [Part.reads, Expr.reads_cond (htest.fold? hat.alike ▸ hf)]
    have hat₂ := hat.before hn.grows
    have htest' := ih₁ (hat₂.before hy.grows) (by simpa [Part.exprs] using htest) trivial
    have hyes' := ih₂ hat₂ (by simpa [Part.exprs] using hyes) trivial
    exact (((htest'.append_silent (Lower.reads_branch _ _)).append hyes').append_silent
      (Fragment.reads_op rfl rfl)).append (ih₃ hat hno trivial)
  | block _ ih =>
    rw [Part.reads, Expr.reads]
    exact ih hat (Expr.Resolved.parts hres rfl fun _ => List.Subset.refl _) trivial
  | and _ _ ih | or _ _ ih =>
    rw [Part.reads, Expr.reads]
    exact ih hat (Expr.Resolved.parts hres rfl fun _ => List.Subset.refl _) trivial
  | andEmpty | orEmpty =>
    rw [Part.reads, Expr.reads, Expr.readsAll]
    exact Fragment.reads_op rfl rfl
  | otherwiseNone => exact Fragment.reads_op rfl rfl
  | otherwiseSome _ ih => exact ih hat hres trivial
  | sequenceNil =>
    rw [Part.reads, Expr.readsAll]
    exact Fragment.reads_op rfl rfl
  | sequenceOne _ ih | operandsOne _ ih =>
    rw [Part.reads, Expr.readsAll, Expr.readsAll, List.append_nil]
    exact ih hat hres trivial
  | sequenceCons _ _ hg ih₁ ih₂ =>
    obtain ⟨hfirst, hrest⟩ := List.forall_mem_cons.1 hres
    rw [Part.reads, Expr.readsAll]
    exact (ih₁ (hat.before hg.grows) (by simpa [Part.exprs] using hfirst) trivial).append
      (ih₂ hat hrest trivial)
  | operandsCons _ _ hg _ _ ih₁ ih₂ =>
    obtain ⟨hfirst, hrest⟩ := List.forall_mem_cons.1 hres
    rw [Part.reads, Expr.readsAll]
    have hread := ih₁ (hat.before hg.grows) (by simpa [Part.exprs] using hfirst) trivial
    exact (hread.append_silent (Lower.reads_branch _ _)).append (ih₂ hat hrest trivial)
  | argumentsNil => exact Fragment.reads_empty
  | valuesNil => exact Fragment.reads_empty
  | argumentsCons hf hg ih₁ ih₂ | spreadCons _ hf hg ih₁ ih₂ =>
    obtain ⟨hfirst, hrest⟩ := List.forall_mem_cons.1 hres
    rw [Part.reads, Expr.readsEach]
    have hread := ih₁ (hat.before hg.grows) (by simpa [Part.exprs] using hfirst) trivial
    exact (hread.pushed (hf.ends rfl)).append (ih₂ hat.push hrest trivial)
  | spreadOne _ ih =>
    rw [Part.reads, Expr.readsEach, Expr.readsEach, List.append_nil]
    exact ih hat hres trivial
  | valuesCons _ hf hg ih₁ ih₂ =>
    obtain ⟨hfirst, hrest⟩ := List.forall_mem_cons.1 hres
    rw [Part.reads, Expr.readsValues]
    have hread := ih₁ (hat.before hg.grows) (by simpa [Part.exprs] using hfirst) trivial
    exact (hread.pushed (hf.ends rfl)).append (ih₂ hat.push hrest trivial)
  | operandAt hi _ ih =>
    rw [Part.reads, Expr.readsAt_of_getElem? hi]
    exact ih hat (by simpa [Part.exprs] using hres _ (List.mem_of_getElem? hi)) trivial
  | operandAtNone hi =>
    rw [Part.reads, Expr.readsAt_of_none hi]
    exact Fragment.reads_op rfl rfl
  | letTail _ hb ih₁ ih₂ =>
    have hvalues := ih₁ (hat.before hb.grows.of_slots)
      (Expr.Resolved.parts hres rfl fun _ => List.subset_append_left _ _) trivial
    rw [Part.reads, Expr.reads]
    exact hvalues.append (ih₂ (hat.bind _ _) (Expr.Resolved.letBody hres hat.above) trivial)
  | letValue _ _ hb ih₁ ih₂ =>
    have hvalues := ih₁ (hat.before hb.grows.of_slots)
      (Expr.Resolved.parts hres rfl fun _ => List.subset_append_left _ _) trivial
    rw [Part.reads, Expr.reads]
    exact (hvalues.append
      (ih₂ (hat.bind _ _) (Expr.Resolved.letBody hres hat.above) trivial)).skipping _
  | @lambda ctx _ _ _ pos name params body _ _ _ _ ih =>
    have hlambda := hres _ (.head _)
    obtain rfl : name = [] := by
      cases hlambda.spelled
      rfl
    -- A function without a name captures all that is free in it: no free name is empty.
    refine ih hat hres ⟨fun n hn => (Expr.mem_freeNames.1 hn).1, fun n hn _ => ?_⟩
    exact ⟨Expr.mem_freeNames.2 (Expr.free_lambda.1 hn), hlambda.spelled.ne_nil_of_free hn⟩
  | @function ctx _ _ pos name params free body captured d b inner _ hc _ hslots _ hb _ ih =>
    subst hc
    -- The body is traced from its own start; the image holds it when it is loaded.
    have hbody := ih (Tracer.At.enter _ hat.alike (List.length_map _) hat.functions)
      (Expr.Resolved.functionBody hres hcap.1 hcap.2) trivial
    have hplace := hat.functions.getElem?_eq_some List.getElem?_concat_length
    have hreads := Image.readsOf_eq hplace (hb.built hslots)
      (Fragment.Reads.returning (f := b.marked pos) hbody)
    have hpool := hat.pool.getElem?_eq_some List.getElem?_concat_length
    have hload := Lower.reads_loadFunction (Lower.capturedBy ctx name free) hpool
    rw [hat.nested _ (by simp), hreads] at hload
    exact hload

end Emits

namespace EmitsForm

variable {σ : Tracer} {img : Image} {ctx : Context} {f : Fragment} {d d₁ : Draft}

theorem publish_reads {pos : Position} {name : Bytes} {i : Nat} {rs : List Read}
    (hi : Yields (Lower.intern ctx pos (.name name)) {} i d₁) (hd : d₁.pool <+: σ.pool)
    (hf : f.Reads σ rs) : (f ++ op .setDef [i]).Reads σ rs := by
  refine hf.append_silent ?_
  have hname := hd.getElem?_eq_some hi.interned.1
  have hset : (op .setDef [i]).Reads σ (σ.readsBy ⟨.setDef, [i]⟩) := Fragment.reads_instr rfl
  rwa [Tracer.readsBy_of_value rfl rfl hname] at hset

/-- The code of a form reads what the form reads. -/
theorem reads {e : Expr} (h : EmitsForm ctx e f d) (hframe : ctx.frame = {})
    (hat : σ.At img d ctx 0 ctx 0) (hspelled : e.Spelled) : f.Reads σ (e.formReads ctx) := by
  have hagrees (n : Bytes) : ctx.frame.Agrees σ.inSlot [] n := by
    rw [hframe]
    rfl
  have hone {x : Expr} (hx : x.Spelled) : ∀ y ∈ [x], y.Resolved ctx.frame σ.inSlot [] := by
    intro y hy
    obtain rfl := List.mem_singleton.1 hy
    exact ⟨hx, fun n _ => hagrees n⟩
  cases h with
  | expression hdecl hf =>
    have hform : e.formReads ctx = e.reads ctx [] 0 := by
      cases e <;> first | rfl | cases hdecl
    rw [hform]
    exact hf.reads hat (hone hspelled) trivial
  | @define pos name value i _ f _ hne hi hf =>
    have hvalue := hspelled.definedValue hne
    have hform : (Expr.define pos name value).formReads ctx = value.reads ctx [] 0 := by
      cases value <;> first | rfl | exact absurd rfl (hne _ _ _ _)
    rw [hform]
    exact publish_reads hi (hf.grows.pool.trans hat.pool) (hf.reads hat (hone hvalue) trivial)
  | @defineFunction pos name place own params body i _ f _ hi hf =>
    have hbody := hspelled.definedBody
    have hread := hf.reads hat (hone (.lambda hbody)) ⟨fun n hn => ?_, fun n _ hs => ?_⟩
    · exact publish_reads hi (hf.grows.pool.trans hat.pool) (f := f.marked place) hread
    · have hbound := (Expr.mem_freeNames.1 hn).1
      unfold Expr.boundBy at hbound
      split at hbound
      · exact hbound
      · exact fun hp => hbound (.tail _ hp)
    · rw [hframe] at hs
      cases hs
  | const hv hi hf =>
    exact publish_reads hi (hf.grows.pool.trans hat.pool) (hf.reads hat (hone .literal) trivial)

end EmitsForm

theorem Compilation.Compiles.reads {options : CompileOptions} {k : Nat} {ctx : Context} {e : Expr}
    {img : Image} (h : Compiles options k ctx e img) (hspelled : e.Spelled) :
    img.reads = e.formReads ctx := by
  obtain ⟨f, d, hf, rfl⟩ := h.emits
  have hlast : (d.functions ++ [entry ctx f d]).length - 1 = d.functions.length := by simp
  unfold Image.reads
  rw [hlast]
  exact Image.readsOf_eq List.getElem?_concat_length (hf.built h.frame)
    (hf.reads h.frame .start hspelled).returning

namespace Evaluation.Scope

variable {scope : Scope Variable} {depth : Nat} {names : List Bytes} {n : Bytes}

theorem define_cons (m : Bytes) :
    scope.define depth (m :: names) =
      define ((m, { place := .above depth }) :: scope) (depth + 1) names := by
  simp [define, bind, List.range_succ_eq_map, Function.comp_def, Nat.add_comm 1, Nat.add_assoc]

theorem lookup_define_of_not_mem (h : n ∉ names) :
    (scope.define depth names).lookup n = scope.lookup n := by
  have hnone : (names.zip ((List.range names.length).map fun i =>
      ({ place := .above (depth + i) } : Variable))).reverse.lookup n = none := by
    refine lookup_eq_none ?_
    rw [List.map_reverse, List.map_fst_zip (by simp), List.mem_reverse]
    exact h
  rw [define, bind, List.lookup_append, hnone]
  rfl

/-- Of equal names in one `let` the last one counts. -/
theorem lookup_define {i : Nat} (hi : names[i]? = some n)
    (hlast : ∀ j, i < j → names[j]? ≠ some n) :
    (scope.define depth names).lookup n = some { place := .above (depth + i) } := by
  induction names generalizing scope depth i with
  | nil => simp at hi
  | cons m names ih =>
    rw [define_cons]
    cases i with
    | zero =>
      obtain rfl : m = n := by simpa using hi
      rw [lookup_define_of_not_mem, List.lookup_cons_self]
      · rfl
      · intro hm
        obtain ⟨j, hj⟩ := List.mem_iff_getElem?.1 hm
        exact hlast (j + 1) (Nat.succ_pos j) hj
    | succ i =>
      rw [ih hi fun j hj => hlast (j + 1) (Nat.succ_lt_succ hj), Nat.add_assoc, Nat.add_comm 1]

end Evaluation.Scope

/-- In every image of a program that is read from a text, each function reads the variables that
lexical scoping says and no others, and of equal names in one `let` the last one counts. -/
theorem Compilation.compile_lexical {reading : ReadOptions} {source : Bytes}
    {options : CompileOptions} {env : Environment} {c : Compilation}
    (h : compile options env (Program.read reading source).forms = .ok c) :
    (c.images.length = (Program.read reading source).forms.length ∧
      ∀ (k : Nat) (img : Image), c.images[k]? = some img →
        ∃ e ctx, (Program.read reading source).forms[k]? = some e ∧
          Compiles options k ctx e img ∧ img.reads = e.formReads ctx) ∧
    ∀ (scope : Scope Variable) (depth : Nat) (names : List Bytes) (n : Bytes) (i : Nat),
      names[i]? = some n → (∀ j, i < j → names[j]? ≠ some n) →
        (scope.define depth names).lookup n = some { place := .above (depth + i) } := by
  obtain ⟨hlen, himages⟩ := compiles_compile h
  refine ⟨⟨hlen, fun k img hk => ?_⟩, fun _ _ _ _ _ hi hlast => Scope.lookup_define hi hlast⟩
  obtain ⟨e, ctx, he, hform⟩ := himages k img hk
  have hspelled : e.Spelled := Program.read_spelled reading source e (List.mem_of_getElem? he)
  exact ⟨e, ctx, he, hform, hform.reads hspelled⟩

/-- A parameter that is hidden by a `let`, which binds one name twice, and two closures of which the
outer one only hands on what the inner one reads. -/
def Program.nested : Bytes :=
  Text.lit "(define f (lambda (a b) (let ((b a) (b 2)) (lambda (c) (lambda () (+ a b c))))))"

theorem Compilation.nested_lexical :
    ∃ c, compile {} {} (Program.read {} Program.nested).forms = .ok c ∧
      c.images.map Image.reads =
        [[.function [.variable ⟨0, .parameter 0⟩, .function [.function
          [.variable ⟨2, .parameter 0⟩, .variable ⟨2, .above 1⟩, .variable ⟨1, .parameter 0⟩]]]]] ∧
      ∀ (k : Nat) (img : Image), c.images[k]? = some img →
        ∃ e ctx, (Program.read {} Program.nested).forms[k]? = some e ∧
          Compiles {} k ctx e img ∧ img.reads = e.formReads ctx := by
  have hreads : (compile {} {} (Program.read {} Program.nested).forms).toOption.map
      (fun c => c.images.map Image.reads) =
        some [[.function [.variable ⟨0, .parameter 0⟩, .function [.function
          [.variable ⟨2, .parameter 0⟩, .variable ⟨2, .above 1⟩,
            .variable ⟨1, .parameter 0⟩]]]]] := by
    decide +kernel
  cases h : compile {} {} (Program.read {} Program.nested).forms with
  | error r =>
    rw [h] at hreads
    cases hreads
  | ok c =>
    rw [h] at hreads
    exact ⟨c, rfl, Option.some.inj hreads, (compile_lexical h).1.2⟩

end StackLisp
