import StackLisp.Proofs.Batches
import StackLisp.Proofs.FreeNames
import StackLisp.Proofs.Texts

/-! Where the texts in compiled functions come from: from the forms, from the constants of the
environment, and from the options. A property that all of these have holds of all texts in the
images. -/
namespace StackLisp

open Lower

/-! ### Values known at compile time -/

namespace Folding

variable {v : Value}

theorem text_int {n : Option Int64} (h : n.map .int = some v) : v.text = [] := by
  obtain ⟨i, -, rfl⟩ := Option.map_eq_some_iff.1 h
  rfl

theorem text_chainInt {step : Int64 → Int64 → Option Int64} {ns : List Int64} {n : Int64}
    (h : chainInt step n ns = some v) : v.text = [] := by
  induction ns generalizing n with
  | nil =>
    cases h
    rfl
  | cons m rest ih =>
    obtain ⟨r, -, h⟩ := Option.bind_eq_some_iff.1 h
    exact ih h

theorem text_divideFloats {div : Double → Double → Double} {ys : List Double} {x : Double}
    (h : divideFloats div x ys = some v) : v.text = [] := by
  induction ys generalizing x with
  | nil =>
    cases h
    rfl
  | cons y ys ih =>
    rw [divideFloats] at h
    split at h
    · cases h
    · exact ih h

/-- What is computed from numbers is a number. -/
theorem text_sum {vs : List Value} (h : sum vs = some v) : v.text = [] := by
  obtain ⟨ns, -, h⟩ := Option.bind_eq_some_iff.1 h
  split at h
  · exact text_chainInt h
  · cases h
    rfl

theorem text_product {vs : List Value} (h : product vs = some v) : v.text = [] := by
  obtain ⟨ns, -, h⟩ := Option.bind_eq_some_iff.1 h
  split at h
  · exact text_chainInt h
  · cases h
    rfl

theorem text_difference {vs : List Value} (h : difference vs = some v) : v.text = [] := by
  obtain ⟨ns, -, h⟩ := Option.bind_eq_some_iff.1 h
  split at h
  · exact text_chainInt h
  · exact text_chainInt h
  · cases h
    rfl
  · cases h
    rfl
  · cases h

theorem text_quotient {div : Int64 → Int64 → Option Int64} {divFloat : Double → Double → Double}
    {vs : List Value} (h : quotient div divFloat vs = some v) : v.text = [] := by
  obtain ⟨ns, -, h⟩ := Option.bind_eq_some_iff.1 h
  split at h
  · exact text_chainInt h
  · exact text_chainInt h
  · exact text_divideFloats h
  · exact text_divideFloats h
  · cases h

theorem text_remainder {vs : List Value} (h : remainder vs = some v) : v.text = [] := by
  obtain ⟨ns, -, h⟩ := Option.bind_eq_some_iff.1 h
  split at h
  · exact text_int h
  · split at h
    · cases h
    · cases h
      rfl
  · cases h

theorem text_allEqual {vs : List Value} (h : allEqual vs = some v) : v.text = [] := by
  fun_induction allEqual vs with
  | case1 a b rest ih =>
    obtain ⟨same, -, h⟩ := Option.bind_eq_some_iff.1 h
    split at h
    · exact ih h
    · cases h
      rfl
  | case2 =>
    cases h
    rfl

theorem text_allDifferent {vs : List Value} (h : allDifferent vs = some v) : v.text = [] := by
  induction vs with
  | nil =>
    cases h
    rfl
  | cons a rest ih =>
    rw [allDifferent] at h
    obtain ⟨differs, -, h⟩ := Option.bind_eq_some_iff.1 h
    split at h
    · exact ih h
    · cases h
      rfl

theorem text_chain {test : Ordering → Bool} {vs : List Value} (h : chain test vs = some v) :
    v.text = [] := by
  obtain ⟨b, -, rfl⟩ := Option.map_eq_some_iff.1 h
  rfl

theorem text_negation {vs : List Value} (h : negation vs = some v) : v.text = [] := by
  unfold negation at h
  split at h <;> cases h
  rfl

theorem text_rounded {mode : Double.Rounding} {vs : List Value} (h : rounded mode vs = some v) :
    v.text = [] := by
  unfold rounded at h
  split at h <;> cases h <;> rfl

theorem text_magnitude {vs : List Value} (h : magnitude vs = some v) : v.text = [] := by
  unfold magnitude at h
  split at h
  · exact text_int h
  · cases h
    rfl
  · cases h

theorem mem_best {better : Ordering → Bool} {vs : List Value} {w : Value}
    (h : best better w vs = some v) : v ∈ w :: vs := by
  induction vs generalizing w with
  | nil =>
    cases h
    exact List.mem_cons_self
  | cons a rest ih =>
    rw [best] at h
    obtain ⟨c, -, h⟩ := Option.bind_eq_some_iff.1 h
    have hmem := ih h
    split at hmem
    · exact List.mem_cons_of_mem _ hmem
    · rcases List.mem_cons.1 hmem with rfl | hmem
      · exact List.mem_cons_self
      · exact List.mem_cons_of_mem _ (List.mem_cons_of_mem _ hmem)

theorem mem_extremum {better : Ordering → Bool} {vs : List Value}
    (h : extremum better vs = some v) : v ∈ vs := by
  unfold extremum at h
  split at h
  · cases h
  · split at h
    · exact mem_best h
    · cases h

end Folding

/-- The value of a call is one of the arguments, or has no text. -/
theorem Primitive.text_fold? {p : Primitive} {args : List Value} {v : Value}
    (h : p.fold? args = some v) : v.text = [] ∨ v ∈ args := by
  unfold fold? at h
  split at h
  · exact .inl (Folding.text_sum h)
  · exact .inl (Folding.text_difference h)
  · exact .inl (Folding.text_product h)
  · exact .inl (Folding.text_quotient h)
  · exact .inl (Folding.text_quotient h)
  · exact .inl (Folding.text_remainder h)
  · exact .inl (Folding.text_allEqual h)
  · exact .inl (Folding.text_allDifferent h)
  · exact .inl (Folding.text_chain h)
  · exact .inl (Folding.text_chain h)
  · exact .inl (Folding.text_chain h)
  · exact .inl (Folding.text_chain h)
  · exact .inl (Folding.text_negation h)
  · exact .inr (List.mem_of_head? h)
  · exact .inl (Folding.text_rounded h)
  · exact .inl (Folding.text_rounded h)
  · exact .inl (Folding.text_rounded h)
  · exact .inl (Folding.text_rounded h)
  · exact .inl (Folding.text_magnitude h)
  · exact .inr (Folding.mem_extremum h)
  · exact .inr (Folding.mem_extremum h)
  · cases h

variable {P : Bytes → Prop}

/-- Constants of the environment have texts with the property `P`. -/
def Environment.Texts (P : Bytes → Prop) (env : Environment) : Prop :=
  ∀ n v, env.find? n = some (.constant v) → P v.text

theorem Context.find?_of_resolve {ctx : Context} {n : Bytes} {v : Value}
    (h : ctx.resolve n = .constant v) : ctx.env.find? n = some (.constant v) := by
  unfold resolve at h
  split at h
  · cases h
  · split at h
    · cases h
    · split at h
      · next hfind =>
        cases h
        exact hfind
      · cases h
      · split at h
        · cases h
        · split at h <;> cases h

theorem Context.find?_of_lookup {ctx : Context} {n : Bytes} {v : Value}
    (h : ctx.lookup n = .constant v) : ctx.env.find? n = some (.constant v) := by
  refine find?_of_resolve ?_
  unfold lookup at h
  split at h
  · split at h <;> cases h
  · exact h

namespace Expr

theorem foldAll?_texts {ctx : Context} {es : List Expr}
    (h : ∀ e ∈ es, ∀ v, e.fold? ctx = some v → P v.text) {vs : List Value}
    (hvs : foldAll? ctx es = some vs) : ∀ v ∈ vs, P v.text := by
  induction es generalizing vs with
  | nil =>
    cases hvs
    simp
  | cons e es ih =>
    rw [foldAll?] at hvs
    split at hvs
    · cases hvs
    · next v hv =>
      obtain ⟨rest, hrest, rfl⟩ := Option.map_eq_some_iff.1 hvs
      intro w hw
      rcases List.mem_cons.1 hw with rfl | hw
      · exact h e List.mem_cons_self w hv
      · exact ih (fun x hx => h x (List.mem_cons_of_mem _ hx)) hrest w hw

/-- The text of a value known at compile time is one of the expression or of a constant. -/
theorem fold?_texts (hnil : P []) {ctx : Context} (henv : ctx.env.Texts P) {e : Expr}
    (he : e.Texts P) {v : Value} (h : e.fold? ctx = some v) : P v.text := by
  induction e using Expr.induction generalizing v with
  | literal pos w =>
    cases h
    exact texts_literal.1 he
  | ident pos n =>
    rw [fold?] at h
    split at h
    · next hn =>
      cases h
      exact henv n _ (Context.find?_of_resolve hn)
    · cases h
  | cond pos test yes no _ ihyes ihno =>
    obtain ⟨-, hyes, hno⟩ := texts_cond.1 he
    cases no with
    | none =>
      rw [fold?] at h
      split at h
      · exact ihyes hyes h
      · cases h
        exact hnil
      · cases h
    | some no =>
      rw [fold?] at h
      split at h
      · exact ihyes hyes h
      · exact ihno no rfl (hno no rfl) h
      · cases h
  | call pos fn args _ ihargs =>
    have hargs := (texts_call.1 he).2
    cases fn with
    | ident place n =>
      rw [fold?] at h
      split at h
      · split at h
        · split at h
          · next p vs _ hvs =>
            have hvalues : ∀ w ∈ vs, P w.text :=
              foldAll?_texts (fun e hmem w hw => ihargs e hmem (hargs e hmem) hw) hvs
            rcases Primitive.text_fold? h with htext | hmem
            · rw [htext]
              exact hnil
            · exact hvalues v hmem
          · cases h
        · cases h
      · cases h
    | _ => cases h
  | _ => cases h

theorem exposed_subset_children (n : Bytes) (e : Expr) : e.exposed n ⊆ e.children := by
  cases e with
  | lambda pos name params body =>
    simp only [exposed, children]
    split <;> simp
  | letIn pos bindings body =>
    simp only [exposed, children]
    split <;> simp
  | _ => exact fun _ h => h

/-- Free names are texts of the expression. -/
theorem Texts.free {n : Bytes} {e : Expr} (h : e.Texts P) (hn : e.Free n) : P n := by
  induction hn with
  | ident => exact texts_ident.1 h
  | child hx _ ih => exact ih ((texts_iff.1 h).2 _ (exposed_subset_children n _ hx))

end Expr

/-! ### Drafts -/

/-- All texts of a draft and of the functions completed so far have the property `P`. -/
structure Draft.Texts (P : Bytes → Prop) (d : Draft) : Prop where
  pool : ∀ c ∈ d.pool, P c.text
  slots : ∀ s ∈ d.slots, P s
  functions : ∀ f ∈ d.functions, ∀ t ∈ f.texts, P t

/-- All texts of a part of a program have the property `P`. -/
def Part.Texts (P : Bytes → Prop) : Part → Prop
  | .expr e | .bare e => e.Texts P
  | .otherwise no => ∀ e, no = some e → e.Texts P
  | .sequence es | .arguments es | .spread es | .operands _ es | .operandAt _ es =>
    ∀ e ∈ es, e.Texts P
  | .values bs => ∀ b ∈ bs, b.value.Texts P
  | .function _ name params free body =>
    P name ∧ (∀ n ∈ params, P n) ∧ (∀ n ∈ free, P n) ∧ ∀ e ∈ body, e.Texts P

namespace Lower

variable {ctx : Context} {pos : Position} {d d' : Draft} {f : Fragment}

theorem Yields.intern_texts {v : Value} {i : Nat} (h : Yields (intern ctx pos v) d i d')
    (hd : d.Texts P) (hv : P v.text) : d'.Texts P := by
  rcases yields_intern.1 h with ⟨-, rfl⟩ | ⟨-, hadd⟩
  · exact hd
  · obtain ⟨-, -, rfl⟩ := yields_addConstant.1 hadd
    refine ⟨fun c hc => ?_, hd.slots, hd.functions⟩
    rcases List.mem_append.1 hc with hc | hc
    · exact hd.pool c hc
    · obtain rfl := List.mem_singleton.1 hc
      exact hv

theorem Yields.load_texts {v : Value} (h : Yields (load ctx pos v) d f d') (hd : d.Texts P)
    (hv : P v.text) : d'.Texts P := by
  rcases yields_load.1 h with ⟨_, -, -, rfl⟩ | ⟨-, i, hi, -⟩
  · exact hd
  · exact hi.intern_texts hd hv

theorem Yields.loadName_texts {name : Bytes} (h : Yields (loadName ctx pos name) d f d')
    (henv : ctx.env.Texts P) (hd : d.Texts P) (hname : P name) : d'.Texts P := by
  rcases yields_loadName h with ⟨_, -, -, rfl⟩ | ⟨v, hv, hload⟩ | ⟨-, -, -, i, hi, -⟩
  · exact hd
  · exact hload.load_texts hd (henv name v (Context.find?_of_lookup hv))
  · exact hi.intern_texts hd hname

/-- A callee known by its value is a name of the program or a constant. -/
theorem Yields.callee_texts {fn : Expr} {v : Value} (h : Yields (callee ctx fn) d (.named v) d')
    (henv : ctx.env.Texts P) (hfn : fn.Texts P) : P v.text := by
  obtain ⟨-, ⟨place, name, rfl, -, hc⟩ | ⟨-, hc⟩⟩ := yields_callee h
  · cases hr : ctx.lookup name with
    | global =>
      rw [hr] at hc
      cases hc
      exact Expr.texts_ident.1 hfn
    | constant w =>
      rw [hr] at hc
      cases hc
      exact henv name v (Context.find?_of_lookup hr)
    | _ =>
      rw [hr] at hc
      cases hc
  · cases hc

theorem mem_nameSlot (slots : List Bytes) (slot : Nat) (name : Bytes) {s : Bytes}
    (h : s ∈ nameSlot slots slot name) : s ∈ slots ∨ s = [] ∨ s = name := by
  have hpadded : ∀ s ∈ slots ++ List.replicate (slot + 1 - slots.length) ([] : Bytes),
      s ∈ slots ∨ s = [] := by
    intro s hs
    rcases List.mem_append.1 hs with hs | hs
    · exact .inl hs
    · exact .inr (List.eq_of_mem_replicate hs)
  unfold nameSlot at h
  dsimp only at h
  split at h
  · rcases List.mem_or_eq_of_mem_set h with h | h
    · exact (hpadded s h).imp_right .inl
    · exact .inr (.inr h)
  · exact (hpadded s h).imp_right .inl

theorem nameSlots_texts (hnil : P []) {slots names : List Bytes} (slot : Nat)
    (hslots : ∀ s ∈ slots, P s) (hnames : ∀ n ∈ names, P n) :
    ∀ s ∈ nameSlots slots slot names, P s := by
  induction names generalizing slots slot with
  | nil => exact hslots
  | cons name rest ih =>
    refine ih (slot + 1) (fun s hs => ?_) fun n hn => hnames n (List.mem_cons_of_mem _ hn)
    rcases mem_nameSlot slots slot name hs with hs | rfl | rfl
    · exact hslots s hs
    · exact hnil
    · exact hnames _ List.mem_cons_self

end Lower

theorem Part.texts_function {pos : Position} {name own : Bytes} {params : List Bytes}
    {body : List Expr} (hname : P name) (hparams : ∀ n ∈ params, P n)
    (hbody : ∀ e ∈ body, e.Texts P) :
    (Part.function pos name params (Expr.freeNames own params body) body).Texts P := by
  refine ⟨hname, hparams, fun n hn => ?_, hbody⟩
  obtain ⟨-, e, he, hfree⟩ := Expr.mem_freeNames.1 hn
  exact (hbody e he).free hfree

theorem Lower.capturedBy_texts {ctx : Context} {name : Bytes} {free : List Bytes}
    (h : ∀ n ∈ free, P n) : ∀ n ∈ (capturedBy ctx name free).map Prod.fst, P n := by
  intro n hn
  obtain ⟨c, hc, rfl⟩ := List.mem_map.1 hn
  obtain ⟨m, hm, hslot⟩ := List.mem_filterMap.1 hc
  split at hslot
  · cases hslot
  · obtain ⟨s, -, rfl⟩ := Option.map_eq_some_iff.1 hslot
    exact h m hm

theorem Draft.Texts.finished {ctx : Context} {pos : Position} {name : Bytes}
    {params : List Bytes} {captures : Nat} {b : Fragment} {inner : Draft}
    (hfile : P ctx.options.filename) (hname : P name) (h : inner.Texts P) :
    ∀ t ∈ (Lower.finished ctx pos name params captures b inner).texts, P t := by
  simp only [Function.texts, Lower.finished, List.mem_cons, List.cons_append, List.mem_append,
    List.mem_map]
  rintro t (rfl | rfl | ht | ⟨c, hc, rfl⟩)
  · exact hname
  · exact hfile
  · exact h.slots t ht
  · exact h.pool c hc

theorem Draft.Texts.named (hnil : P []) {d : Draft} (h : d.Texts P) {bindings : List (Binding Expr)}
    (hnames : ∀ b ∈ bindings, P b.name) (depth : Nat) :
    Draft.Texts P { d with slots := nameSlots d.slots depth (bindings.map Binding.name) } := by
  refine ⟨h.pool, nameSlots_texts hnil depth h.slots ?_, h.functions⟩
  intro n hn
  obtain ⟨b, hb, rfl⟩ := List.mem_map.1 hn
  exact hnames b hb

/-- A part of a program brings no other texts into the draft than its own. -/
theorem Emits.texts (hnil : P []) {ctx : Context} {use : Use} {base depth : Nat} {part : Part}
    {d d' : Draft} {f : Fragment} (h : Emits ctx use base depth part d f d')
    (hfile : P ctx.options.filename) (henv : ctx.env.Texts P) (hpart : part.Texts P)
    (hd : d.Texts P) : d'.Texts P := by
  induction h with
  | marked _ _ ih => exact ih hfile henv hpart hd
  | negation _ _ ih => exact ih hfile henv (Expr.texts_call.1 hpart).2 hd
  | literal hy => exact hy.load_texts hd (Expr.texts_literal.1 hpart)
  | ident hy => exact hy.loadName_texts henv hd (Expr.texts_ident.1 hpart)
  | callSelf _ _ _ _ ih | callOperand _ _ _ _ _ _ ih | callUnary _ _ _ _ _ _ ih
  | callStep _ _ _ _ _ _ ih | callPlain _ _ _ _ _ _ ih =>
    exact ih hfile henv (Expr.texts_call.1 hpart).2 hd
  | callNamed _ hcallee _ hi _ ih =>
    obtain ⟨hfn, hargs⟩ := Expr.texts_call.1 hpart
    exact ih hfile henv hargs (hi.intern_texts hd (hcallee.callee_texts henv hfn))
  | callFolded _ _ _ hfold hy => exact hy.load_texts hd (Expr.fold?_texts hnil henv hpart hfold)
  | callComputed _ _ _ _ ihfn ihargs =>
    obtain ⟨hfn, hargs⟩ := Expr.texts_call.1 hpart
    exact ihargs hfile henv hargs (ihfn hfile henv hfn hd)
  | applySelf _ _ _ _ _ ih => exact ih hfile henv (Expr.texts_apply.1 hpart).2 hd
  | applyComputed _ _ _ _ _ _ ihfn ihargs =>
    obtain ⟨hfn, hargs⟩ := Expr.texts_apply.1 hpart
    exact ihargs hfile henv hargs (ihfn hfile henv hfn hd)
  | condTrue _ _ ih => exact ih hfile henv (Expr.texts_cond.1 hpart).2.1 hd
  | condFalse _ _ ih => exact ih hfile henv (Expr.texts_cond.1 hpart).2.2 hd
  | condTail _ _ _ _ _ _ ihtest ihyes ihno | condValue _ _ _ _ _ _ _ _ ihtest ihyes ihno =>
    obtain ⟨htest, hyes, hno⟩ := Expr.texts_cond.1 hpart
    exact ihno hfile henv hno (ihyes hfile henv hyes (ihtest hfile henv htest hd))
  | block _ ih => exact ih hfile henv (Expr.texts_block.1 hpart) hd
  | letTail _ _ ihvalues ihbody | letValue _ _ _ ihvalues ihbody =>
    obtain ⟨hnames, hvalues, hbody⟩ := Expr.texts_letIn.1 hpart
    exact ihbody hfile henv hbody ((ihvalues hfile henv hvalues hd).named hnil hnames _)
  | and _ _ ih => exact ih hfile henv (Expr.texts_and.1 hpart) hd
  | or _ _ ih => exact ih hfile henv (Expr.texts_or.1 hpart) hd
  | lambda _ ih =>
    obtain ⟨⟨hname, hparams⟩, hbody⟩ := Expr.texts_lambda.1 hpart
    exact ih hfile henv (Part.texts_function hname hparams hbody) hd
  | function _ hcaptured _ _ _ _ _ ih =>
    obtain ⟨hname, hparams, hfree, hbody⟩ := hpart
    subst hcaptured
    have hinner := ih hfile henv hbody ⟨nofun, fun s hs => ?_, hd.functions⟩
    · refine ⟨fun c hc => ?_, hd.slots, fun g hg => ?_⟩
      · rcases List.mem_append.1 hc with hc | hc
        · exact hd.pool c hc
        · obtain rfl := List.mem_singleton.1 hc
          exact hnil
      · rcases List.mem_append.1 hg with hg | hg
        · exact hinner.functions g hg
        · obtain rfl := List.mem_singleton.1 hg
          exact hinner.finished hfile hname
    · rcases List.mem_append.1 hs with hs | hs
      · exact hparams s hs
      · exact capturedBy_texts hfree s hs
  | otherwiseSome _ ih => exact ih hfile henv (hpart _ rfl) hd
  | sequenceOne _ ih | spreadOne _ ih | operandsOne _ ih =>
    exact ih hfile henv (hpart _ List.mem_cons_self) hd
  | sequenceCons _ _ _ ihfirst ihrest | argumentsCons _ _ ihfirst ihrest
  | spreadCons _ _ _ ihfirst ihrest | operandsCons _ _ _ _ _ ihfirst ihrest
  | valuesCons _ _ _ ihfirst ihrest =>
    obtain ⟨hfirst, hrest⟩ := List.forall_mem_cons.1 hpart
    exact ihrest hfile henv hrest (ihfirst hfile henv hfirst hd)
  | operandAt hget _ ih => exact ih hfile henv (hpart _ (List.mem_of_getElem? hget)) hd
  | andEmpty | orEmpty | otherwiseNone | sequenceNil | argumentsNil | operandAtNone | valuesNil =>
    exact hd

theorem EmitsForm.texts (hnil : P []) {ctx : Context} {e : Expr} {f : Fragment} {d : Draft}
    (h : EmitsForm ctx e f d) (hfile : P ctx.options.filename) (henv : ctx.env.Texts P)
    (he : e.Texts P) : d.Texts P := by
  have hempty : Draft.Texts P {} := ⟨nofun, nofun, nofun⟩
  cases h with
  | expression _ h => exact h.texts hnil hfile henv he hempty
  | define _ hi h =>
    obtain ⟨hname, hvalue⟩ := Expr.texts_define.1 he
    exact h.texts hnil hfile henv hvalue (hi.intern_texts hempty hname)
  | defineFunction hi h =>
    obtain ⟨hname, hvalue⟩ := Expr.texts_define.1 he
    obtain ⟨⟨-, hparams⟩, hbody⟩ := Expr.texts_lambda.1 hvalue
    exact h.texts hnil hfile henv (Part.texts_function hname hparams hbody)
      (hi.intern_texts hempty hname)
  | const hfold hi h =>
    obtain ⟨hname, hvalue⟩ := Expr.texts_const.1 he
    refine h.texts hnil hfile henv ?_ (hi.intern_texts hempty hname)
    exact Expr.texts_literal.2 (Expr.fold?_texts hnil henv hvalue hfold)

/-! ### Forms -/

/-- All texts in the functions of an image have the property `P`. -/
def Image.Texts (P : Bytes → Prop) (img : Image) : Prop :=
  ∀ f ∈ img.functions, ∀ t ∈ f.texts, P t

theorem Environment.Texts.insert {env : Environment} (h : env.Texts P) (name : Bytes) {s : Symbol}
    (hs : ∀ v, s = .constant v → P v.text) : (env.insert name s).Texts P := by
  intro n v hv
  rw [find?_insert] at hv
  by_cases hn : n = name
  · rw [if_pos hn] at hv
    exact hs v (Option.some.inj hv)
  · rw [if_neg hn] at hv
    exact h n v hv

namespace Compilation

variable {options : CompileOptions} {env env₁ : Environment} {ctx : Context} {c : Compilation}

theorem formCode_env_texts (hnil : P []) {e : Expr} {f : Fragment} {d : Draft}
    (h : Yields (formCode ctx e) {} (f, env₁) d) (henv : ctx.env.Texts P) (he : e.Texts P) :
    env₁.Texts P := by
  unfold formCode at h
  split at h
  · obtain ⟨g, d₁, -, hp⟩ := yields_bind.1 h
    obtain ⟨heq, -⟩ := yields_pure.1 hp
    cases heq
    exact henv.insert _ nofun
  · obtain ⟨⟨g, v⟩, d₁, hconst, hp⟩ := yields_bind.1 h
    obtain ⟨heq, -⟩ := yields_pure.1 hp
    cases heq
    obtain ⟨-, hvalue⟩ := Expr.texts_const.1 he
    unfold const at hconst
    split at hconst
    · exact absurd hconst not_yields_refuse
    · next w hfold =>
      obtain ⟨i, d₂, -, hk⟩ := yields_bind.1 hconst
      obtain ⟨g', d₃, -, hp⟩ := yields_bind.1 hk
      obtain ⟨heq, -⟩ := yields_pure.1 hp
      cases heq
      refine henv.insert _ fun u hu => ?_
      cases hu
      exact Expr.fold?_texts hnil henv hvalue hfold
  · obtain ⟨g, d₁, -, hp⟩ := yields_bind.1 h
    obtain ⟨heq, -⟩ := yields_pure.1 hp
    cases heq
    exact henv

theorem form_texts (hnil : P []) {e : Expr} {img : Image} (h : (form ctx e).1 = .ok (img, env₁))
    (hfile : P ctx.options.filename) (henv : ctx.env.Texts P) (he : e.Texts P) :
    img.Texts P ∧ env₁.Texts P := by
  unfold form at h
  split at h
  · cases h
  · next f env d hyields =>
    cases h
    have hcode : Yields (formCode ctx e) {} (f, env₁) d := hyields
    have hdraft : d.Texts P := (emits_formCode hcode).texts hnil hfile henv he
    refine ⟨fun g hg => ?_, formCode_env_texts hnil hcode henv he⟩
    rcases List.mem_append.1 hg with hg | hg
    · exact hdraft.functions g hg
    · obtain rfl := List.mem_singleton.1 hg
      simp only [Function.texts, List.mem_cons, List.cons_append, List.mem_append, List.mem_map]
      rintro t (rfl | rfl | ht | ⟨k, hk, rfl⟩)
      · exact hnil
      · exact hfile
      · exact hdraft.slots t ht
      · exact hdraft.pool k hk

theorem formsFrom_texts (hnil : P []) {declared : List (Bytes × Nat)} {index : Nat}
    {forms : List Expr} (h : (formsFrom options declared env index forms).1 = .ok c)
    (hfile : P options.filename) (henv : env.Texts P) (hforms : ∀ e ∈ forms, e.Texts P) :
    ∀ img ∈ c.images, img.Texts P := by
  induction forms generalizing env index c with
  | nil =>
    cases h
    simp
  | cons e rest ih =>
    obtain ⟨img, env₁, c₁, hform, hrest, rfl⟩ := formsFrom_cons.1 h
    obtain ⟨he, hothers⟩ := List.forall_mem_cons.1 hforms
    obtain ⟨himg, henv₁⟩ := form_texts hnil hform hfile henv he
    exact List.forall_mem_cons.2 ⟨himg, ih hrest henv₁ hothers⟩

/-- Compilation brings no other texts into its images than those of the forms, of the constants of
the environment, and the name of the file. -/
theorem compile_texts (hnil : P []) {forms : List Expr} (h : compile options env forms = .ok c)
    (hfile : P options.filename) (henv : env.Texts P) (hforms : ∀ e ∈ forms, e.Texts P) :
    ∀ img ∈ c.images, img.Texts P := by
  obtain ⟨declared, -, hcode⟩ := compile_eq_ok.1 h
  exact formsFrom_texts hnil hcode hfile henv hforms

end Compilation
end StackLisp
