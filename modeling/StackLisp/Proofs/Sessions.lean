import StackLisp.Proofs.CallCounts
import StackLisp.Proofs.Inlining

/-! Sessions. Batches of forms are compiled one after the other, each in the environment that the
ones before it leave. Environments only grow, and what they record of a name is what the code of its
form publishes. -/
namespace StackLisp

open Fragment (op instr)
open Lower

namespace Environment

/-- Every symbol is found unchanged in the later environment. -/
def Extends (env later : Environment) : Prop :=
  ∀ n s, env.find? n = some s → later.find? n = some s

variable {env env₁ env₂ : Environment} {name : Bytes} {s : Symbol}

theorem Extends.refl (env : Environment) : env.Extends env := fun _ _ h => h

theorem Extends.trans (h : env.Extends env₁) (h' : env₁.Extends env₂) : env.Extends env₂ :=
  fun n s hn => h' n s (h n s hn)

theorem extends_insert (h : env.find? name = none) : env.Extends (env.insert name s) := by
  intro n t hn
  rw [find?_insert, if_neg, hn]
  rintro rfl
  cases h.symm.trans hn

/-- A new name is added, and no symbol is replaced. -/
theorem perm_insertInto {symbols : List (Bytes × Symbol)} (h : symbols.lookup name = none) :
    (insertInto name s symbols).Perm ((name, s) :: symbols) := by
  induction symbols with
  | nil => exact .refl _
  | cons entry rest ih =>
    obtain ⟨m, t⟩ := entry
    rw [lookup_cons_ite] at h
    by_cases hm : name = m
    · rw [if_pos hm] at h
      cases h
    · rw [if_neg hm] at h
      rw [insertInto, if_neg hm]
      split
      · exact .refl _
      · exact ((ih h).cons (m, t)).trans (.swap _ _ _)

theorem names_insert_perm (h : env.find? name = none) :
    (env.insert name s).names.Perm (name :: env.names) :=
  (perm_insertInto h).map Prod.fst

end Environment

/-! ### One batch -/

namespace Compilation

variable {options : CompileOptions} {env : Environment}

theorem Stepwise.extends {forms : List Expr} {c : Compilation}
    (h : Stepwise options env forms c) :
    env.Extends c.env ∧ c.env.names.Perm (introduced forms ++ env.names) := by
  induction h with
  | nil => exact ⟨.refl _, .refl _⟩
  | @cons env env₁ e rest img c hone _ ih =>
    -- A name that a form introduces is new, so that its symbol hides no other.
    obtain ⟨hfresh, ctx, -, rfl, hform⟩ := compiles_alone hone
    obtain ⟨hext, hperm⟩ := ih
    rcases env_form hform with ⟨hnone, rfl⟩ | ⟨name, s, hname, rfl⟩
    · rw [introduced_cons_of_none hnone]
      exact ⟨hext, hperm⟩
    · have habsent := ((fresh_cons_of_some hname).1 hfresh).1
      rw [introduced_cons_of_some hname]
      refine ⟨(Environment.extends_insert habsent).trans hext, hperm.trans ?_⟩
      refine ((Environment.names_insert_perm habsent).append_left _).trans ?_
      exact List.perm_middle

end Compilation

/-! ### What a form publishes -/

/-- The constant that an instruction loads. -/
def Instruction.loaded? (pool : List Constant) (i : Instruction) : Option Constant :=
  match i.op with
  | .unit => some (.value .unit)
  | .truth => some (.value (.bool true))
  | .falsity => some (.value (.bool false))
  | .wide .const | .compact .const _ => i.poolIndex?.bind fun k => pool[k]?
  | _ => none

theorem Instruction.loaded?_indexed (pool : List Constant) (k : Nat) :
    (indexed .const k).loaded? pool = pool[k]? := by
  unfold indexed
  split <;> rfl

theorem Lower.Yields.load_loaded {ctx : Context} {pos : Position} {v : Value} {d d' : Draft}
    {f : Fragment} (h : Yields (load ctx pos v) d f d') :
    ∃ l, f = instr l ∧ l.loaded? d'.pool = some (.value v) := by
  rcases yields_load.1 h with ⟨o, ho, rfl, -⟩ | ⟨-, i, hi, rfl⟩
  · refine ⟨⟨o, []⟩, rfl, ?_⟩
    cases v with
    | unit =>
      cases ho
      rfl
    | bool b =>
      cases b <;> cases ho <;> rfl
    | _ => cases ho
  · exact ⟨_, rfl, (Instruction.loaded?_indexed _ i).trans hi.interned.1⟩

/-- The entry of the image loads the constant, publishes it under the name, and returns. -/
def Image.Publishes (img : Image) (name : Bytes) (k : Constant) : Prop :=
  ∃ g l i, img.functions.getLast? = some g ∧
    g.instructions = [l, ⟨.setDef, [i]⟩, ⟨.ret, []⟩] ∧
    g.constants[i]? = some (.value (.name name)) ∧ l.loaded? g.constants = some k

/-- A form whose code loads a constant and publishes it under a name. -/
theorem EmitsForm.publishes {ctx : Context} {e : Expr} {f : Fragment} {l : Instruction} {i : Nat}
    {d : Draft} {name : Bytes} {k : Constant} (h : EmitsForm ctx e (f ++ op .setDef [i]) d)
    (hframe : ctx.frame = {}) (hf : f.instructions = [l]) (hl : l.loaded? d.pool = some k)
    (hname : d.pool[i]? = some (.value (.name name))) :
    Image.Publishes ⟨d.functions ++ [Compilation.entry ctx (f ++ op .setDef [i]) d]⟩ name k := by
  refine ⟨_, l, i, List.getLast?_concat, ?_, hname, hl⟩
  rw [(h.built hframe).instructions_eq, op, Fragment.returning_append_instr f rfl,
    Fragment.instructions_append, Fragment.instructions_append, hf]
  rfl

/-- Outside all functions a function is loaded without captures. -/
theorem Emits.function_loaded {ctx : Context} {place : Position} {name : Bytes}
    {params free : List Bytes} {body : List Expr} {d d' : Draft} {f : Fragment}
    (h : Emits ctx .value 0 0 (.function place name params free body) d f d')
    (hframe : ctx.frame = {}) :
    ∃ l p g, f.instructions = [l] ∧ l.loaded? d'.pool = some (.function p) ∧
      d'.functions[p]? = some g ∧ g.name = name ∧ g.params = params.length := by
  cases h with
  | function _ hcaptured =>
    rw [capturedBy_eq_nil hframe] at hcaptured
    subst hcaptured
    refine ⟨_, _, _, rfl, ?_, List.getElem?_concat_length, rfl, rfl⟩
    rw [Instruction.loaded?_indexed]
    exact List.getElem?_concat_length

/-- In the environment the name stands for the value. Each use of the name that nothing hides, and
that is not a callee, loads the value, so that programs have the code that they have with the value
in place of the name. -/
structure Environment.Loads (env : Environment) (name : Bytes) (v : Value) : Prop where
  reference : ∀ ctx : Context, ctx.env = env → ctx.frame.slot? name = none →
    (ctx.frame.name ≠ [] → ctx.frame.name ≠ name) → ∀ use base depth pos d f d',
      Yields (expr ctx use base depth (.ident pos name)) d f d' →
        ∃ l, f.instructions = [l] ∧ l.loaded? d'.pool = some (.value v)
  program : ∀ options forms c,
    Compilation.compile options env (forms.map (Expr.inlined name v)) = .ok c ↔
      Compilation.compile options env forms = .ok c

theorem Environment.loads_of_find? {env : Environment} {name : Bytes} {v : Value}
    (h : env.find? name = some (.constant v)) : env.Loads name v where
  reference := by
    rintro ctx rfl hslot hname use base depth pos d f d' hy
    rw [expr] at hy
    obtain ⟨g, hload, rfl⟩ := yields_map.1 hy
    rw [loadName_of_knows ⟨h, hslot, hname⟩] at hload
    obtain ⟨l, rfl, hl⟩ := hload.load_loaded
    exact ⟨l, rfl, hl⟩
  program := Compilation.compile_inlined h

namespace Compilation

/-- What the environment `env` behind a form records of its name, and what the image of the form
publishes. -/
def Records (env : Environment) (img : Image) : Expr → Prop
  | .define _ name (.lambda _ _ params _) =>
    env.find? name = some (.definition params.length) ∧
      ∃ p g, img.Publishes name (.function p) ∧ img.functions[p]? = some g ∧ g.name = name ∧
        g.params = params.length
  | .define _ name _ => env.find? name = some (.definition (-1))
  | .const _ name _ =>
    ∃ v, env.find? name = some (.constant v) ∧ img.Publishes name (.value v) ∧
      ∀ later, env.Extends later → later.Loads name v
  | _ => True

theorem find?_insert_self (env : Environment) (name : Bytes) (s : Symbol) :
    (env.insert name s).find? name = some s := by
  rw [Environment.find?_insert, if_pos rfl]

theorem records_form {ctx : Context} {e : Expr} {img : Image} {env : Environment}
    (hframe : ctx.frame = {}) (h : (form ctx e).1 = .ok (img, env)) : Records env img e := by
  obtain ⟨f, d, hcode, himg⟩ := form_eq_ok.1 h
  have hemits := emits_formCode hcode
  subst himg
  unfold Records
  split
  · next pos name place own params body =>
    refine ⟨?_, ?_⟩
    · rw [env_define h]
      exact find?_insert_self _ _ _
    · have hform := hemits
      cases hemits with
      | expression hdecl => cases hdecl
      | define hne => exact absurd rfl (hne _ _ _ _)
      | defineFunction hi hf =>
        have hname := hf.grows.pool.getElem?_eq_some hi.interned.1
        obtain ⟨l, p, g, hl, hloaded, hg, hgname, hgparams⟩ := hf.function_loaded hframe
        refine ⟨p, g, hform.publishes hframe hl hloaded hname, ?_, hgname, hgparams⟩
        exact List.getElem?_append_left (List.getElem?_eq_some_iff.1 hg).1 ▸ hg
  · next pos name value hne =>
    have harity : arityOf value = -1 := by
      cases value with
      | lambda place own params body => exact absurd rfl (hne place own params body)
      | _ => rfl
    rw [env_define h, harity]
    exact find?_insert_self _ _ _
  · next pos name value =>
    obtain ⟨v, hv, rfl⟩ := env_const h
    have hfound := find?_insert_self ctx.env name (.constant v)
    refine ⟨v, hfound, ?_, fun later hlater => Environment.loads_of_find? (hlater _ _ hfound)⟩
    have hform := hemits
    cases hemits with
    | expression hdecl => cases hdecl
    | const hw hi hf =>
      have hname := hf.grows.pool.getElem?_eq_some hi.interned.1
      -- The value is folded in the same context for the code and for the environment.
      cases hv.symm.trans hw
      cases hf with
      | literal hy =>
        obtain ⟨l, rfl, hloaded⟩ := hy.load_loaded
        exact hform.publishes hframe rfl hloaded hname
  · trivial

/-- Each form of a batch finds the symbols of the forms before it. -/
theorem extends_take {options : CompileOptions} {env : Environment} {forms : List Expr} {i j : Nat}
    (hij : i ≤ j) {c c' : Compilation} (h : compile options env (forms.take i) = .ok c)
    (h' : compile options env (forms.take j) = .ok c') : c.env.Extends c'.env := by
  rw [compile_iff_stepwise, ← List.take_append_drop_take hij forms] at h'
  obtain ⟨c₁, c₂, hfront, hrest, rfl⟩ := stepwise_append.1 h'
  cases h.symm.trans (compile_iff_stepwise.2 hfront)
  exact hrest.extends.1

end Compilation

/-! ### Whole sessions -/

/-- Forms that are compiled together, and how. -/
structure Batch where
  options : CompileOptions
  forms : List Expr

namespace Environment

open Compilation

/-- The environment behind a batch. One that is refused leaves it as it is. -/
def after (env : Environment) (b : Batch) : Environment :=
  match compile b.options env b.forms with
  | .ok c => c.env
  | .error _ => env

/-- The environment behind a session that starts with `env`. -/
def session (env : Environment) (batches : List Batch) : Environment := batches.foldl after env

variable {env : Environment} {b : Batch}

theorem after_of_ok {c : Compilation} (h : compile b.options env b.forms = .ok c) :
    env.after b = c.env := by
  unfold after
  rw [h]

theorem after_of_error {r : LocatedRefusal} (h : compile b.options env b.forms = .error r) :
    env.after b = env := by
  unfold after
  rw [h]

theorem extends_after (env : Environment) (b : Batch) : env.Extends (env.after b) := by
  cases h : compile b.options env b.forms with
  | error r =>
    rw [after_of_error h]
    exact .refl env
  | ok c =>
    rw [after_of_ok h]
    exact (compile_iff_stepwise.1 h).extends.1

theorem extends_session (env : Environment) (batches : List Batch) :
    env.Extends (env.session batches) := by
  induction batches generalizing env with
  | nil => exact .refl env
  | cons b batches ih => exact (extends_after env b).trans (ih (env.after b))

theorem session_append (env : Environment) (batches more : List Batch) :
    env.session (batches ++ more) = (env.session batches).session more :=
  List.foldl_append

theorem session_take_succ (env : Environment) {batches : List Batch} {k : Nat}
    (h : batches[k]? = some b) :
    env.session (batches.take (k + 1)) = (env.session (batches.take k)).after b := by
  rw [List.take_add_one, h, session_append]
  rfl

/-- What a session leaves. Every symbol is found unchanged in all later environments. A batch that
is refused adds nothing. Any other adds the names of its forms, each of them new; from then on they
have the symbols that the code of the forms publishes. -/
theorem session_records (env : Environment) (batches : List Batch) :
    (∀ i j, i ≤ j → (env.session (batches.take i)).Extends (env.session (batches.take j))) ∧
    ∀ k b, batches[k]? = some b →
      (∀ r, compile b.options (env.session (batches.take k)) b.forms = .error r →
        env.session (batches.take (k + 1)) = env.session (batches.take k)) ∧
      ∀ c, compile b.options (env.session (batches.take k)) b.forms = .ok c →
        env.session (batches.take (k + 1)) = c.env ∧
        Fresh (env.session (batches.take k)) b.forms ∧
        c.env.names.Perm (introduced b.forms ++ (env.session (batches.take k)).names) ∧
        (∀ i j c₁ c₂, i ≤ j →
          compile b.options (env.session (batches.take k)) (b.forms.take i) = .ok c₁ →
          compile b.options (env.session (batches.take k)) (b.forms.take j) = .ok c₂ →
            c₁.env.Extends c₂.env) ∧
        c.images.length = b.forms.length ∧
        ∀ j img, c.images[j]? = some img → ∃ e c₁, b.forms[j]? = some e ∧
          compile b.options (env.session (batches.take k)) (b.forms.take (j + 1)) = .ok c₁ ∧
          Records c₁.env img e := by
  refine ⟨fun i j hij => ?_, fun k b hb => ⟨fun r hr => ?_, fun c hc => ?_⟩⟩
  · rw [← List.take_append_drop_take hij batches, session_append]
    exact extends_session _ _
  · rw [session_take_succ env hb, after_of_error hr]
  · have hsteps := compile_iff_stepwise.1 hc
    refine ⟨?_, hsteps.fresh, hsteps.extends.2, ?_, (compiles_compile hc).1, fun j img himg => ?_⟩
    · rw [session_take_succ env hb, after_of_ok hc]
    · exact fun i j c₁ c₂ hij h₁ h₂ => extends_take hij h₁ h₂
    · obtain ⟨e, c₀, env₁, he, -, hone, hupto⟩ := compile_in_force hc himg
      obtain ⟨-, ctx, hcompiles, -, hform⟩ := compiles_alone hone
      exact ⟨e, _, he, hupto, records_form hcompiles.frame hform⟩

end Environment

/-- The forms of a text. -/
def Batch.ofText (text : String) : Batch := ⟨{}, (Program.read {} (Text.lit text)).forms⟩

/-- A session in which the second batch is refused, because it defines a name again. -/
def Batch.sample : List Batch :=
  [ofText "(const a 7) (define f (lambda (x y) (+ x a))) (define b f)",
    ofText "(const d 1) (define f 2)", ofText "(define g (lambda () (f a b)))"]

theorem Environment.sample_records :
    (({} : Environment).session Batch.sample).symbols =
      [(Text.lit "a", .constant (.int 7)), (Text.lit "b", .definition (-1)),
        (Text.lit "f", .definition 2), (Text.lit "g", .definition 0)] ∧
    session {} (Batch.sample.take 2) = session {} (Batch.sample.take 1) ∧
    ∃ b c, Batch.sample[0]? = some b ∧ Compilation.compile b.options {} b.forms = .ok c ∧
      session {} (Batch.sample.take 1) = c.env ∧ c.images.length = 3 ∧
      ∀ j img, c.images[j]? = some img → ∃ e c₁, b.forms[j]? = some e ∧
        Compilation.compile b.options {} (b.forms.take (j + 1)) = .ok c₁ ∧
        Compilation.Records c₁.env img e := by
  obtain ⟨-, hbatch⟩ := session_records {} Batch.sample
  refine ⟨by decide +kernel, ?_, ?_⟩
  · obtain ⟨hrefused, -⟩ := hbatch 1 _ rfl
    have herror : (Compilation.compile {} (session {} (Batch.sample.take 1))
        (Batch.ofText "(const d 1) (define f 2)").forms).toOption = none := by decide +kernel
    cases h : Compilation.compile {} (session {} (Batch.sample.take 1))
        (Batch.ofText "(const d 1) (define f 2)").forms with
    | error r => exact hrefused r h
    | ok c =>
      rw [h] at herror
      cases herror
  · obtain ⟨-, haccepted⟩ := hbatch 0 _ rfl
    have hcount : (Compilation.compile {} {} (Batch.ofText
        "(const a 7) (define f (lambda (x y) (+ x a))) (define b f)").forms).toOption.map
          (fun c => c.images.length) = some 3 := by decide +kernel
    cases h : Compilation.compile {} {} (Batch.ofText
        "(const a 7) (define f (lambda (x y) (+ x a))) (define b f)").forms with
    | error r =>
      rw [h] at hcount
      cases hcount
    | ok c =>
      rw [h] at hcount
      obtain ⟨henv, -, -, -, -, hrecords⟩ := haccepted c h
      exact ⟨_, c, rfl, h, henv, Option.some.inj hcount, hrecords⟩

end StackLisp
