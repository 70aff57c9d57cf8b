import StackLisp.Proofs.Batches
import StackLisp.Proofs.Visibility

/-! What a name means inside its own definition. The definition is compiled as if its name were
published already and no system function had that name, except for calls that stand outside the
function that is defined. -/
namespace StackLisp

open Fragment (op instr)
open Lower (Yields yields_callee_ident)

/-- The table without the system function of the given name. -/
def BuiltinTable.without (t : BuiltinTable) (n : Bytes) : BuiltinTable where
  entries := t.entries.filter fun b => b.name ≠ n
  names_nodup := t.names_nodup.sublist (List.filter_sublist.map _)
  ids_nodup := t.ids_nodup.sublist (List.filter_sublist.map _)

/-- The host defines the name as well, and no system function has it. -/
def CompileOptions.publishing (options : CompileOptions) (n : Bytes) : CompileOptions :=
  { options with globals := n :: options.globals, builtins := options.builtins.without n }

def Context.publishing (ctx : Context) (n : Bytes) : Context :=
  { ctx with options := ctx.options.publishing n }

theorem BuiltinTable.find?_without (t : BuiltinTable) {n m : Bytes} :
    (t.without n).find? m = if m = n then none else t.find? m := by
  unfold find? without
  by_cases h : m = n
  · rw [if_pos h, List.find?_eq_none]
    intro b hb
    have hne : b.name ≠ n := by simpa using (List.mem_filter.1 hb).2
    simpa [h] using hne
  · rw [if_neg h, List.find?_filter]
    congr 1
    funext b
    by_cases hb : b.name = m
    · have hne : m ≠ n := h
      simp [hb, hne]
    · simp [hb]

namespace Context

variable {ctx : Context} {n : Bytes}

/-- The function being compiled has the given name. -/
def IsOwn (ctx : Context) (n : Bytes) : Prop := ctx.frame.name ≠ [] ∧ ctx.frame.name = n

/-- A name that is neither local nor defined before is one of the host or of the system. -/
theorem resolve_outside (ctx : Context) (hslot : ctx.frame.slot? n = none) (hown : ¬ ctx.IsOwn n)
    (henv : ctx.env.find? n = none) :
    ctx.resolve n = if n ∈ ctx.options.globals then .global
      else match ctx.options.builtins.find? n with
        | some b => .builtin b
        | none => .unbound := by
  unfold resolve
  rw [hslot, henv]
  exact if_neg hown

theorem resolve_publishing_of_ne {m : Bytes} (h : m ≠ n) :
    (ctx.publishing n).resolve m = ctx.resolve m := by
  have hglobals : m ∈ (ctx.options.publishing n).globals ↔ m ∈ ctx.options.globals := by
    simp [CompileOptions.publishing, h]
  have hbuiltins : (ctx.options.publishing n).builtins.find? m = ctx.options.builtins.find? m :=
    (ctx.options.builtins.find?_without).trans (if_neg h)
  unfold resolve publishing
  simp only [hglobals, hbuiltins]

theorem resolve_publishing (hslot : ctx.frame.slot? n = none) (hown : ¬ ctx.IsOwn n)
    (henv : ctx.env.find? n = none) : (ctx.publishing n).resolve n = .global := by
  have hmem : n ∈ (ctx.publishing n).options.globals := List.mem_cons_self
  have hresolve := resolve_outside (ctx.publishing n) hslot hown henv
  rwa [if_pos hmem] at hresolve

/-- Such a name is loaded by name. -/
theorem loaded_lookup_outside (hslot : ctx.frame.slot? n = none) (hown : ¬ ctx.IsOwn n)
    (henv : ctx.env.find? n = none) (hbound : ctx.lookup n ≠ .unbound) :
    (ctx.lookup n).loaded = .global := by
  have hresolve := resolve_outside ctx hslot hown henv
  unfold lookup at hbound ⊢
  by_cases hglobal : n ∈ ctx.options.globals
  · rw [if_pos hglobal] at hresolve
    rw [hresolve]
    rfl
  · rw [if_neg hglobal] at hresolve
    cases hb : ctx.options.builtins.find? n with
    | some b =>
      rw [hb] at hresolve
      rw [hresolve]
      rfl
    | none =>
      rw [hb] at hresolve
      rw [hresolve] at hbound ⊢
      by_cases hlate : ctx.bindsLate n = true
      · simp [hlate, Resolution.loaded]
      · simp [hlate] at hbound

theorem lookup_publishing (hslot : ctx.frame.slot? n = none) (hown : ¬ ctx.IsOwn n)
    (henv : ctx.env.find? n = none) : (ctx.publishing n).lookup n = .global := by
  rw [lookup, resolve_publishing hslot hown henv]

/-- What the frame knows is not touched. -/
theorem serves_publishing_of_frame (h : (ctx.frame.slot? n).isSome ∨ ctx.IsOwn n) :
    ctx.Serves (ctx.publishing n) n :=
  .of_frame rfl h

theorem serves_publishing_of_ne {m : Bytes} (h : m ≠ n) : ctx.Serves (ctx.publishing n) m :=
  .of_resolve (resolve_publishing_of_ne h).symm fun _ hlate => hlate

/-- A name that is not defined before is loaded by name in any case. -/
theorem loads_publishing (henv : ctx.env.find? n = none) (m : Bytes) :
    ctx.Loads (ctx.publishing n) m := by
  by_cases hm : m = n
  · subst hm
    by_cases hframe : (ctx.frame.slot? m).isSome ∨ ctx.IsOwn m
    · exact (serves_publishing_of_frame hframe).loads
    · obtain ⟨hsome, hown⟩ := not_or.1 hframe
      have hslot : ctx.frame.slot? m = none := by simpa using hsome
      refine ⟨fun v => ?_, fun hbound => ?_⟩
      · rw [resolve_publishing hslot hown henv, resolve_outside ctx hslot hown henv]
        split
        · simp
        · split <;> simp
      · rw [lookup_publishing hslot hown henv, loaded_lookup_outside hslot hown henv hbound]
        rfl
  · exact (serves_publishing_of_ne hm).loads

/-- The name refers to the same if no system function has it, or the host has it as well. -/
theorem serves_publishing (henv : ctx.env.find? n = none)
    (hfree : n ∈ ctx.options.globals ∨ ctx.options.builtins.find? n = none) (m : Bytes) :
    ctx.Serves (ctx.publishing n) m := by
  by_cases hm : m = n
  · subst hm
    by_cases hframe : (ctx.frame.slot? m).isSome ∨ ctx.IsOwn m
    · exact serves_publishing_of_frame hframe
    · obtain ⟨hsome, hown⟩ := not_or.1 hframe
      have hslot : ctx.frame.slot? m = none := by simpa using hsome
      have hresolve : ctx.resolve m = .global ∨ ctx.resolve m = .unbound := by
        rw [resolve_outside ctx hslot hown henv]
        rcases hfree with hglobal | hnone
        · rw [if_pos hglobal]
          exact .inl rfl
        · rw [hnone]
          split
          · exact .inl rfl
          · exact .inr rfl
      refine ⟨?_, fun hbound => ?_⟩
      · unfold KnowAlike
        rw [resolve_publishing hslot hown henv]
        rcases hresolve with hr | hr
        · rw [hr]
        · rw [hr]
          rfl
      · rw [lookup_publishing hslot hown henv]
        have hloaded := loaded_lookup_outside hslot hown henv hbound
        unfold lookup at hbound hloaded ⊢
        rcases hresolve with hr | hr
        · rw [hr]
        · rw [hr] at hbound ⊢
          by_cases hlate : ctx.bindsLate m = true
          · simp [hlate]
          · simp [hlate] at hbound
  · exact serves_publishing_of_ne hm

end Context

/-- Wherever the name is used in the context, the code refers to the definition of the name: it is
loaded by name, and called by name or as the function being compiled. -/
structure Context.Refers (ctx : Context) (n : Bytes) : Prop where
  unknown : ∀ pos place args, (Expr.call pos (.ident place n) args).fold? ctx = none
  load : ∀ {use base depth pos d f d'},
    Yields (Lower.expr ctx use base depth (.ident pos n)) d f d' →
      ∃ i, d'.pool[i]? = some (.value (.name n)) ∧ f = (instr (.indexed .getDef i)).marked pos
  call : ∀ {use base depth pos place args d f d'},
    Yields (Lower.expr ctx use base depth (.call pos (.ident place n) args)) d f d' →
      ∃ d₁ a, Emits ctx .value base depth (.arguments args) d₁ a d' ∧
        (ctx.frame.name = n ∧
            f = (a ++ op (if use = .tail then .tailCallSelf else .callSelf)
              [args.length]).marked pos ∨
          ∃ i, d'.pool[i]? = some (.value (.name n)) ∧
            f = (a ++ instr (.indexed .callConst i [args.length])).marked pos)
  apply : ∀ {use base depth pos place args d f d'},
    Yields (Lower.expr ctx use base depth (.apply pos (.ident place n) args)) d f d' →
      ∃ a, ctx.frame.name = n ∧
          f = (a ++ op (if use = .tail then .tailApplySelf else .applySelf)
            [args.length - 1]).marked pos ∨
        ∃ i, d'.pool[i]? = some (.value (.name n)) ∧
          f = (((instr (.indexed .getDef i)).marked place).pushed ++ a
            ++ op .apply [args.length - 1]).marked pos

/-- The name is that of the function being compiled, or of a definition. -/
def Context.Published (ctx : Context) (n : Bytes) : Prop :=
  ctx.resolve n = .self ∧ ctx.frame.name = n ∨ ctx.resolve n = .global

namespace Context

variable {ctx : Context} {options : CompileOptions} {n : Bytes}

theorem published_of_options (hoptions : ctx.options = options.publishing n)
    (henv : ctx.env.find? n = none) (hslot : ctx.frame.slot? n = none) : ctx.Published n := by
  by_cases hown : ctx.IsOwn n
  · left
    refine ⟨?_, hown.2⟩
    unfold resolve
    rw [hslot]
    exact if_pos hown
  · right
    have hmem : n ∈ ctx.options.globals := by
      rw [hoptions]
      exact List.mem_cons_self
    rw [resolve_outside ctx hslot hown henv, if_pos hmem]

namespace Published

theorem lookup (h : ctx.Published n) :
    ctx.lookup n = .self ∧ ctx.frame.name = n ∨ ctx.lookup n = .global := by
  unfold Context.lookup
  rcases h with ⟨hr, hname⟩ | hr
  · rw [hr]
    exact .inl ⟨rfl, hname⟩
  · rw [hr]
    exact .inr rfl

theorem callee (h : ctx.Published n) {d d' : Draft} {place : Position} {c : Lower.Callee}
    (hc : Yields (Lower.callee ctx (.ident place n)) d c d') :
    c = .self ∧ ctx.frame.name = n ∨ c = .named (.name n) := by
  obtain ⟨-, rfl, -⟩ := yields_callee_ident.1 hc
  rcases h.lookup with ⟨hl, hname⟩ | hl
  · rw [hl]
    exact .inl ⟨rfl, hname⟩
  · rw [hl]
    exact .inr rfl

theorem isNegation (h : ctx.Published n) (place : Position) (argc : Nat) :
    Lower.isNegation ctx (.ident place n) argc = false := by
  rcases h with ⟨hr, -⟩ | hr
  · simp only [Lower.isNegation, hr]
  · simp only [Lower.isNegation, hr]

theorem fold? (h : ctx.Published n) (pos place : Position) (args : List Expr) :
    (Expr.call pos (.ident place n) args).fold? ctx = none := by
  rw [Expr.fold?]
  rcases h with ⟨hr, -⟩ | hr
  · rw [hr]
  · rw [hr]

theorem load (h : ctx.Published n) {use : Use} {base depth : Nat} {pos : Position} {d d' : Draft}
    {f : Fragment} (hf : Emits ctx use base depth (.expr (.ident pos n)) d f d') :
    ∃ i, d'.pool[i]? = some (.value (.name n)) ∧ f = (instr (.indexed .getDef i)).marked pos := by
  cases hf with
  | marked _ hf =>
  cases hf with
  | ident hf =>
  rcases Lower.yields_loadName hf with ⟨s, hs, -⟩ | ⟨v, hv, -⟩ | ⟨-, -, -, i, hi, rfl⟩
  · simpa [hs] using h.lookup
  · simpa [hv] using h.lookup
  · exact ⟨i, hi.interned.1, rfl⟩

theorem refers (h : ctx.Published n) : ctx.Refers n where
  unknown := h.fold?
  load hf := h.load (Lower.adequate _ hf)
  call hf := by
    cases Lower.adequate _ hf with
    | negation hneg => simp [h.isNegation] at hneg
    | marked _ hf =>
    cases hf with
    | callSelf _ hc _ ha =>
      rcases h.callee hc with ⟨-, hname⟩ | hnamed
      · exact ⟨_, _, ha, .inl ⟨hname, rfl⟩⟩
      · cases hnamed
    | callNamed _ hc _ hi ha =>
      rcases h.callee hc with ⟨hself, -⟩ | hnamed
      · cases hself
      · cases hnamed
        have hpool := ha.grows.pool.getElem?_eq_some hi.interned.1
        exact ⟨_, _, ha, .inr ⟨_, hpool, rfl⟩⟩
    | callFolded _ hc | callOperand _ hc | callUnary _ hc | callStep _ hc | callPlain _ hc
    | callComputed _ hc =>
      rcases h.callee hc with ⟨hself, -⟩ | hnamed
      · cases hself
      · cases hnamed
  apply hf := by
    cases Lower.adequate _ hf with
    | marked _ hf =>
    cases hf with
    | applySelf _ _ hc _ ha =>
      rcases h.callee hc with ⟨-, hname⟩ | hnamed
      · exact ⟨_, .inl ⟨hname, rfl⟩⟩
      · cases hnamed
    | applyComputed _ _ _ _ hg ha =>
      obtain ⟨i, hi, rfl⟩ := h.load hg
      exact ⟨_, .inr ⟨i, ha.grows.pool.getElem?_eq_some hi, rfl⟩⟩

end Published
end Context

/-- The name is called in an expression where nothing in the expression binds it. -/
inductive Expr.Calls (n : Bytes) : Expr → Prop where
  | call {pos place args} : Calls n (.call pos (.ident place n) args)
  | child {e x} : x ∈ e.exposed n → Calls n x → Calls n e

/-- A function in the expression calls the name, and nothing in the expression binds it. -/
inductive Expr.CallsInside (n : Bytes) : Expr → Prop where
  | lambda {pos name params body} : (Expr.lambda pos name params body).Calls n →
      CallsInside n (.lambda pos name params body)
  | child {e x} : x ∈ e.exposed n → CallsInside n x → CallsInside n e

/-- The value of the definition of a name calls the name, but not in the body of the function that
is defined. -/
def Expr.CallsElsewhere (n : Bytes) : Expr → Prop
  | .lambda _ _ params body => n ∉ params ∧ ∃ e ∈ body, e.CallsInside n
  | value => value.Calls n

theorem Expr.not_calls_ident {n m : Bytes} {pos : Position} : ¬ (Expr.ident pos m).Calls n := by
  intro h
  cases h with
  | child hx _ => simp [exposed, children] at hx

theorem Expr.not_callsInside_ident {n m : Bytes} {pos : Position} :
    ¬ (Expr.ident pos m).CallsInside n := by
  intro h
  cases h with
  | child hx _ => simp [exposed, children] at hx

theorem Expr.Calls.free {e : Expr} {n : Bytes} (h : e.Calls n) : e.Free n := by
  induction h with
  | call => exact .child (.head _) .ident
  | child hx _ ih => exact .child hx ih

/-- Where the name is called, it is a local, or the function that is compiled has this name and
contains no other function that calls it. -/
def Context.Guards (ctx : Context) (n : Bytes) (e : Expr) : Prop :=
  e.Calls n → (ctx.frame.slot? n).isSome ∨ ctx.frame.name = n ∧ ¬ e.CallsInside n

namespace Context.Guards

variable {ctx : Context} {n : Bytes} {e x : Expr}

theorem part (h : ctx.Guards n e) (hx : x ∈ e.exposed n) : ctx.Guards n x := by
  intro hcalls
  rcases h (.child hx hcalls) with hslot | ⟨hname, hno⟩
  · exact .inl hslot
  · exact .inr ⟨hname, fun hinside => hno (.child hx hinside)⟩

theorem bind {slot : Nat} {names : List Bytes} (h : n ∉ names → ctx.Guards n x) :
    (ctx.bind slot names).Guards n x := by
  intro hcalls
  by_cases hn : n ∈ names
  · exact .inl (Frame.isSome_slot?_bind.2 (.inl hn))
  · rcases h hn hcalls with hslot | ⟨hname, hno⟩
    · exact .inl (Frame.isSome_slot?_bind.2 (.inr hslot))
    · exact .inr ⟨(Frame.name_bind _ _ _).trans hname, hno⟩

/-- A function has a slot of its own for each local that it calls. -/
theorem enter {pos : Position} {params : List Bytes} {body : List Expr}
    (h : ctx.Guards n (.lambda pos [] params body)) (hspelled : x.Spelled) (hx : x ∈ body) :
    (ctx.enter [] params ((Lower.capturedBy ctx [] (Expr.freeNames [] params body)).map
      Prod.fst)).Guards n x := by
  intro hcalls
  refine .inl (Frame.isSome_slot?_ofFunction.2 ?_)
  by_cases hn : n ∈ params
  · exact .inl hn
  · have hbound : n ∉ Expr.boundBy [] params := hn
    have hexposed : x ∈ (Expr.lambda pos [] params body).exposed n := by
      rw [Expr.exposed, if_neg hbound]
      exact hx
    have hlambda : (Expr.lambda pos [] params body).Calls n := .child hexposed hcalls
    rcases h hlambda with hslot | ⟨-, hno⟩
    · obtain ⟨s, hs⟩ := Option.isSome_iff_exists.1 hslot
      have hfree : n ∈ Expr.freeNames [] params body :=
        Expr.mem_freeNames.2 ⟨hbound, x, hx, hcalls.free⟩
      have hcaptured : (n, s) ∈ Lower.capturedBy ctx [] (Expr.freeNames [] params body) :=
        Lower.mem_capturedBy.2 ⟨hfree, hspelled.ne_nil_of_free hcalls.free, hs⟩
      exact .inr (List.mem_map.2 ⟨(n, s), hcaptured, rfl⟩)
    · exact absurd (.lambda hlambda) hno

theorem isOwn (h : ctx.Guards n e) (hspelled : e.Spelled) (hcalls : e.Calls n) :
    (ctx.frame.slot? n).isSome ∨ ctx.IsOwn n := by
  rcases h hcalls with hslot | ⟨hname, -⟩
  · exact .inl hslot
  · exact .inr ⟨hname ▸ hspelled.ne_nil_of_free hcalls.free, hname⟩

end Context.Guards

/-- An expression that calls the name only where it is guarded does not depend on the system
function of that name. -/
theorem Expr.Spelled.served_publishing {ctx : Context} {n : Bytes} {e : Expr} (h : e.Spelled)
    (henv : ctx.env.find? n = none) (hguards : ctx.Guards n e) :
    e.Served ctx (ctx.publishing n) := by
  induction h generalizing ctx with
  | literal => exact .literal
  | ident => exact .ident (ctx.loads_publishing henv _)
  | @call pos fn args hfn hargs ihfn ihargs =>
    refine .call (fun place m hm => ?_) (ihfn henv (hguards.part (.head _)))
      fun e he => ihargs e he henv (hguards.part (.tail _ he))
    by_cases hn : m = n
    · subst hm hn
      exact ctx.serves_publishing_of_frame (hguards.isOwn (.call hfn hargs) .call)
    · exact ctx.serves_publishing_of_ne hn
  | apply _ _ ihfn ihargs =>
    exact .apply (ihfn henv (hguards.part (.head _)))
      fun e he => ihargs e he henv (hguards.part (.tail _ he))
  | cond _ _ _ ihtest ihyes ihno =>
    refine .cond (ihtest henv (hguards.part (.head _)))
      (ihyes henv (hguards.part (.tail _ (.head _)))) fun e he => ?_
    subst he
    exact ihno e rfl henv (hguards.part (.tail _ (.tail _ (.head _))))
  | @lambda pos params body hbody ih =>
    exact .lambda fun e he => ih e he henv (hguards.enter (hbody e he) he)
  | define | defineFunction => exact .define
  | const => exact .const
  | @letIn pos bindings body _ _ ihvalues ihbody =>
    refine .letIn (fun b hb => ?_) fun slot e he => ?_
    · have hvalue : b.value ∈ (Expr.letIn pos bindings body).exposed n :=
        List.mem_append_left _ (List.mem_map_of_mem hb)
      exact ihvalues b hb henv (hguards.part hvalue)
    · have hbody (hn : n ∉ bindings.map Binding.name) :
          e ∈ (Expr.letIn pos bindings body).exposed n := by
        rw [Expr.exposed, if_neg hn]
        exact List.mem_append_right _ he
      exact ihbody e he henv (.bind fun hn => hguards.part (hbody hn))
  | block _ ih => exact .block fun e he => ih e he henv (hguards.part he)
  | and _ ih => exact .and fun e he => ih e he henv (hguards.part he)
  | or _ ih => exact .or fun e he => ih e he henv (hguards.part he)

namespace Compilation

variable {options : CompileOptions} {ctx : Context} {n : Bytes}

/-- The own name of a definition is published where the definition calls it, unless it calls a
system function of that name outside the function that is defined. -/
theorem definitionServed_publishing {pos : Position} {value : Expr}
    (hspelled : (Expr.define pos n value).Spelled) (henv : ctx.env.find? n = none)
    (hcalls : n ∉ ctx.options.globals → ctx.options.builtins.find? n ≠ none →
      ¬ value.CallsElsewhere n) :
    DefinitionServed ctx (ctx.publishing n) n value := by
  by_cases hfree : n ∈ ctx.options.globals ∨ ctx.options.builtins.find? n = none
  · have hserving : Context.Serving fun c₁ c₂ => c₂ = c₁.publishing n ∧
        c₁.env.find? n = none ∧
        (n ∈ c₁.options.globals ∨ c₁.options.builtins.find? n = none) := by
      refine ⟨?_, ?_, ?_⟩
      · rintro c₁ _ ⟨rfl, henv, hfree⟩ slot names
        exact ⟨rfl, henv, hfree⟩
      · rintro c₁ _ ⟨rfl, henv, hfree⟩ name params captures
        exact ⟨rfl, henv, hfree⟩
      · rintro c₁ _ ⟨rfl, henv, hfree⟩ m
        exact c₁.serves_publishing henv hfree m
    exact definitionServed_of_serving hserving ⟨rfl, henv, hfree⟩ value
  · obtain ⟨hglobal, hbuiltin⟩ := not_or.1 hfree
    have hno := hcalls hglobal hbuiltin
    unfold DefinitionServed
    split
    · next place own params body =>
      have hbody := hspelled.definedBody
      intro captures e he
      refine (hbody e he).served_publishing henv fun hc => ?_
      by_cases hn : n ∈ params
      · exact .inl (Frame.isSome_slot?_ofFunction.2 (.inl hn))
      · exact .inr ⟨Frame.name_bind _ _ _, fun hinside => hno ⟨hn, e, he, hinside⟩⟩
    · next hne =>
      have hvalue := hspelled.definedValue hne
      have hnone : ¬ value.Calls n := by
        unfold Expr.CallsElsewhere at hno
        split at hno
        · exact absurd rfl (hne _ _ _ _)
        · exact hno
      exact hvalue.served_publishing henv fun hc => absurd hc hnone

/-- In a program that is read from a text, a definition is compiled as if its name were published
and no system function had that name, unless the name is that of a system function which the
definition calls outside the function that it defines. A use of a published name refers to its
definition. -/
theorem define_own_name {reading : ReadOptions} {source : Bytes} {options : CompileOptions}
    {env : Environment} {c : Compilation}
    (h : compile options env (Program.read reading source).forms = .ok c) {k : Nat}
    {pos : Position} {n : Bytes} {value : Expr} {img : Image}
    (hk : (Program.read reading source).forms[k]? = some (.define pos n value))
    (himg : c.images[k]? = some img) :
    ∃ ctx, Compiles options k ctx (.define pos n value) img ∧
      ((n ∉ options.globals → options.builtins.find? n ≠ none → ¬ value.CallsElsewhere n) →
        Compiles (options.publishing n) k (ctx.publishing n) (.define pos n value) img) ∧
      ∀ inner : Context, inner.options = options.publishing n → inner.env = ctx.env →
        inner.frame.slot? n = none → inner.Refers n := by
  obtain ⟨ctx, hctx, hfresh⟩ := compiles_fresh h hk himg
  have henv : ctx.env.find? n = none := hfresh.absent n List.mem_cons_self
  have hspelled := Program.read_spelled reading source _ (List.mem_of_getElem? hk)
  refine ⟨ctx, hctx, fun hcalls => ?_, fun inner hoptions hinner hslot => ?_⟩
  · obtain ⟨env', hform⟩ := hctx.image
    have hserved : FormServed ctx (ctx.publishing n) (.define pos n value) :=
      definitionServed_publishing hspelled henv (hctx.options ▸ hcalls)
    refine ⟨congrArg (CompileOptions.publishing · n) hctx.options, hctx.index, hctx.frame,
      hctx.outer, env', ?_⟩
    have htwin : ctx.Twin (ctx.publishing n) := ⟨rfl, rfl, rfl⟩
    exact form_of_served htwin hserved hform
  · exact (Context.published_of_options hoptions (hinner ▸ henv) hslot).refers

end Compilation

namespace Program

/-- A function with the name of a system function, which calls itself, and with a function inside
that mentions the name. -/
def absolute : Bytes := Text.lit "(define abs (lambda (x) (abs (lambda () abs))))"

/-- A function with the name of a system function, and with a function inside that calls the
name. -/
def absoluteInside : Bytes := Text.lit "(define abs (lambda (x) (lambda (y) (abs y))))"

end Program

namespace Compilation

/-- The call is one of the function itself, and the mention loads the definition. -/
theorem absolute_own_name :
    ∃ c img ctx pos value,
      compile {} {} (Program.read {} Program.absolute).forms = .ok c ∧
      c.images = [img] ∧
      img.functions.map Function.bytes = [[38, 87], [29, 81, 1], [21, 71, 0, 87]] ∧
      Compiles (CompileOptions.publishing {} (Text.lit "abs")) 0 ctx
        (.define pos (Text.lit "abs") value) img := by
  have hcode : (compile {} {} (Program.read {} Program.absolute).forms).toOption.map
      (fun c => c.images.map fun img => img.functions.map Function.bytes) =
        some [[[38, 87], [29, 81, 1], [21, 71, 0, 87]]] := by
    decide +kernel
  have hform : (Program.read {} Program.absolute).forms[0]? =
      some (.define ⟨0, 0, 0, []⟩ (Text.lit "abs")
        (.lambda ⟨12, 0, 12, []⟩ [] [Text.lit "x"]
          [.call ⟨24, 0, 24, []⟩ (.ident ⟨25, 0, 25, []⟩ (Text.lit "abs"))
            [.lambda ⟨29, 0, 29, []⟩ [] [] [.ident ⟨40, 0, 40, []⟩ (Text.lit "abs")]]])) := by
    with_unfolding_all rfl
  cases h : compile {} {} (Program.read {} Program.absolute).forms with
  | error r =>
    rw [h] at hcode
    cases hcode
  | ok c =>
    rw [h] at hcode
    obtain ⟨img, himages, hbytes⟩ := List.map_eq_singleton_iff.1 (Option.some.inj hcode)
    obtain ⟨ctx, -, hpublished, -⟩ := define_own_name h hform (by rw [himages]; rfl)
    refine ⟨c, img, _, _, _, rfl, himages, hbytes, hpublished fun _ _ => ?_⟩
    rintro ⟨-, e, he, hinside⟩
    obtain rfl := List.mem_singleton.1 he
    -- The only function inside is the argument of the call, and it contains no call.
    cases hinside with
    | child hx hinside =>
      simp only [Expr.exposed, Expr.children, List.mem_cons, List.not_mem_nil, or_false] at hx
      rcases hx with rfl | rfl
      · exact Expr.not_callsInside_ident hinside
      · cases hinside with
        | lambda hcalls =>
          cases hcalls with
          | child hx hcalls =>
            obtain rfl : _ = _ := by simpa [Expr.exposed, Expr.boundBy] using hx
            exact Expr.not_calls_ident hcalls
        | child hx hinside =>
          obtain rfl : _ = _ := by simpa [Expr.exposed, Expr.boundBy] using hx
          exact Expr.not_callsInside_ident hinside

/-- A function inside a definition calls the system function that has the name of the definition:
the pool of the innermost function does not even hold the name. -/
theorem absoluteInside_calls_system :
    ((compile {} {} (Program.read {} Program.absoluteInside).forms).toOption.map fun c =>
        c.images.map fun img => img.functions.map fun f => (f.bytes, f.constants)) =
      some [[([11, 78, 19, 87], []), ([20, 87], [.function 0]),
        ([21, 71, 0, 87], [.value (.name (Text.lit "abs")), .function 1])]] ∧
    (BuiltinTable.standard.find? (Text.lit "abs")).map Builtin.id = some 19 ∧
    (⟨.callSys, [19]⟩ : Instruction).bytes = [78, 19] := by
  decide +kernel

end Compilation
end StackLisp
