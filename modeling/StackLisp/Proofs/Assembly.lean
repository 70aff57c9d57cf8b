import StackLisp.Compilation
import StackLisp.Proofs.Discipline

/-! Completed functions. Each is well put together on its own and refers only to functions that were
completed before it. -/
namespace StackLisp

open Fragment (op)
open Lower

/-- Functions in the pool of a draft are completed. -/
def Draft.Refers (d : Draft) : Prop := ∀ k, .function k ∈ d.pool → k < d.functions.length

theorem Draft.kept_refers : Draft.Kept fun d d' => d.Refers → d'.Refers where
  refl _ hr := hr
  trans h h' hr := h' (h hr)
  slots _ _ hr := hr
  intern h hr := by
    obtain ⟨-, hf, hpool⟩ := h.interned
    intro k hk
    rw [hf]
    rcases hpool with hp | ⟨-, hp⟩
    · exact hr k (hp ▸ hk)
    · rw [hp, List.mem_append, List.mem_singleton] at hk
      exact hr k (hk.resolve_right (by simp))
  function _ hb _ _ hr := by
    intro k hk
    have hgrown := hb.grows.functions.length_le
    rw [List.length_append]
    rw [List.mem_append, List.mem_singleton] at hk
    rcases hk with hk | hk
    · exact Nat.lt_succ_of_lt (Nat.lt_of_lt_of_le (hr k hk) hgrown)
    · cases hk
      exact Nat.lt_succ_self _

/-- What holds of a function with the instructions `is` when the functions `earlier` are completed
before it: the code is that of the instructions, they suit the pool, control stays in the code, and
the stack is used as the parameters and the captured values allow. -/
structure Function.Built (earlier : List Function) (g : Function) (is : List Instruction) :
    Prop where
  code : g.bytes = Instruction.encode is
  sound : ∀ i ∈ is, i.Sound g.constants earlier
  last : ∃ i, is.getLast? = some i ∧ i.op.isTerminal = true
  flow : ∃ base : Nat, (base : Int) = g.params + g.captures ∧
    Carries base 0 base (fun _ _ => False) is
  references : ∀ k, .function k ∈ g.constants → k < earlier.length

/-- The code of a function splits into what it was built from. -/
theorem Function.Built.decodeFrom_bytes {earlier : List Function} {g : Function}
    {is : List Instruction} (h : g.Built earlier is) :
    Instruction.decodeFrom 0 g.bytes = (Instruction.placeFrom 0 is, none) := by
  rw [h.code]
  exact Instruction.decodeFrom_zero_encode fun i hi => (h.sound i hi).fits

/-- Functions that were completed one after the other. -/
inductive Assembled : List Function → Prop where
  | nil : Assembled []
  | snoc {earlier g is} : Assembled earlier → g.Built earlier is → Assembled (earlier ++ [g])

theorem Assembled.built {functions : List Function} (h : Assembled functions) {k : Nat}
    {g : Function} (hk : functions[k]? = some g) :
    ∃ is, g.Built (functions.take k) is := by
  induction h with
  | nil => simp at hk
  | @snoc earlier g' is _ hbuilt ih =>
    by_cases hlt : k < earlier.length
    · rw [List.getElem?_append_left hlt] at hk
      rw [List.take_append_of_le_length (Nat.le_of_lt hlt)]
      exact ih hk
    · rw [List.getElem?_append_right (Nat.le_of_not_lt hlt), List.getElem?_singleton] at hk
      split at hk
      · next h0 =>
        cases hk
        have hkeq : k = earlier.length := by omega
        rw [hkeq, List.take_left]
        exact ⟨is, hbuilt⟩
      · cases hk

/-- A piece of code that returns becomes a function. -/
theorem Fragment.built {d : Draft} {f : Fragment} {g : Function} {base : Nat} (he : f.Ends)
    (hs : f.Sound d) (hf : f.Finishes base 0 base) (hr : d.Refers)
    (hcode : g.code = some f.returning.code) (hpool : g.constants = d.pool)
    (hbase : (base : Int) = g.params + g.captures) :
    g.Built d.functions f.returning.instructions where
  code := by rw [Function.bytes, hcode]; rfl
  sound := hpool ▸ hs.returning
  last := he.returning_terminal
  flow := ⟨base, hbase, hf⟩
  references := hpool ▸ hr

/-- The body of a function becomes a function that is well put together. -/
theorem Emits.built {ctx : Context} {pos : Position} {name : Bytes} {params : List Bytes}
    {body : List Expr} {captured : List (Bytes × Nat)} {functions : List Function} {b : Fragment}
    {inner : Draft} (hslots : params.length + captured.length ≤ Limit.slots)
    (hb : Emits (ctx.enter name params (captured.map Prod.fst)) .tail 0
      (params.length + captured.length) (.sequence body)
      { slots := params ++ captured.map Prod.fst, functions } b inner) :
    (finished ctx pos name params captured.length b inner).Built inner.functions
      (b.marked pos).returning.instructions := by
  have hframe : (ctx.enter name params (captured.map Prod.fst)).frame.Below
      (params.length + captured.length) := by
    have h := Frame.below_ofFunction name params (captured.map Prod.fst)
    rwa [List.length_map] at h
  have hends : b.Ends := hb.ends rfl
  have hflow : b.Finishes (params.length + captured.length) 0
      (params.length + captured.length) := hb.flows hframe (Nat.le_refl _)
  have hrefers : inner.Refers := Draft.kept_refers.emits hb (fun k hk => by simp at hk)
  exact Fragment.built (hends.marked pos) (hb.sound (hframe.mono hslots) (by simp))
    (hflow.marked hends pos) hrefers rfl rfl (by simp [finished])

theorem Assembled.kept :
    Draft.Kept fun d d' => Assembled d.functions → Assembled d'.functions where
  refl _ h := h
  trans h h' ha := h' (h ha)
  slots _ _ h := h
  intern h ha := h.interned.2.1 ▸ ha
  function hslots hb ih _ ha := (ih ha).snoc (hb.built hslots)

/-- The code `f` of a top-level form, and the draft `d` behind it. -/
inductive EmitsForm (ctx : Context) : Expr → Fragment → Draft → Prop where
  | expression {e f d} :
      Compilation.declaredName? e = none → Emits ctx .tail 0 0 (.expr e) {} f d →
      EmitsForm ctx e f d
  | define {pos name value i d₁ f d} :
      (∀ place own params body, value ≠ .lambda place own params body) →
      Yields (intern ctx pos (.name name)) {} i d₁ →
      Emits ctx .value 0 0 (.expr value) d₁ f d →
      EmitsForm ctx (.define pos name value) (f ++ op .setDef [i]) d
  | defineFunction {pos name place own params body i d₁ f d} :
      Yields (intern ctx pos (.name name)) {} i d₁ →
      Emits ctx .value 0 0
        (.function place name params (Expr.freeNames own params body) body) d₁ f d →
      EmitsForm ctx (.define pos name (.lambda place own params body))
        (f.marked place ++ op .setDef [i]) d
  | const {pos name value v i d₁ f d} :
      value.fold? ctx = some v → Yields (intern ctx pos (.name name)) {} i d₁ →
      Emits ctx .value 0 0 (.bare (.literal value.pos v)) d₁ f d →
      EmitsForm ctx (.const pos name value) (f ++ op .setDef [i]) d

namespace Compilation

variable {ctx : Context} {d : Draft} {f : Fragment}

theorem emits_define {pos : Position} {name : Bytes} {value : Expr}
    (h : Yields (define ctx pos name value) {} f d) :
    EmitsForm ctx (.define pos name value) f d := by
  obtain ⟨i, d₁, hi, h⟩ := yields_bind.1 h
  split at h
  · obtain ⟨g, d₂, hg, hp⟩ := yields_bind.1 h
    obtain ⟨rfl, rfl⟩ := yields_pure.1 hp
    obtain ⟨g, hfun, rfl⟩ := yields_map.1 hg
    exact .defineFunction hi (emits_function (fun e _ => adequate e) hfun)
  · next hne =>
    obtain ⟨g, d₂, hg, hp⟩ := yields_bind.1 h
    obtain ⟨rfl, rfl⟩ := yields_pure.1 hp
    exact .define hne hi (adequate _ hg)

theorem emits_const {pos : Position} {name : Bytes} {value : Expr} {v : Value}
    (h : Yields (const ctx pos name value) {} (f, v) d) :
    EmitsForm ctx (.const pos name value) f d := by
  unfold const at h
  split at h
  · exact absurd h not_yields_refuse
  · next v' hv =>
    obtain ⟨i, d₁, hi, h⟩ := yields_bind.1 h
    obtain ⟨g, d₂, hg, hp⟩ := yields_bind.1 h
    obtain ⟨heq, rfl⟩ := yields_pure.1 hp
    cases heq
    exact .const hv hi (.literal hg)

theorem emits_formCode {e : Expr} {env : Environment}
    (h : Yields (formCode ctx e) {} (f, env) d) : EmitsForm ctx e f d := by
  unfold formCode at h
  split at h
  · obtain ⟨g, d₁, hg, hp⟩ := yields_bind.1 h
    obtain ⟨heq, rfl⟩ := yields_pure.1 hp
    cases heq
    exact emits_define hg
  · obtain ⟨⟨g, v⟩, d₁, hg, hp⟩ := yields_bind.1 h
    obtain ⟨heq, rfl⟩ := yields_pure.1 hp
    cases heq
    exact emits_const hg
  · next hd hc =>
    obtain ⟨g, d₁, hg, hp⟩ := yields_bind.1 h
    obtain ⟨heq, rfl⟩ := yields_pure.1 hp
    cases heq
    refine .expression ?_ (adequate _ hg)
    unfold declaredName?
    split
    · exact absurd rfl (hd _ _ _)
    · exact absurd rfl (hc _ _ _)
    · rfl

/-- The function that evaluates a form with the given code. -/
def entry (ctx : Context) (f : Fragment) (d : Draft) : Function :=
  { constants := d.pool
    code := some f.returning.code
    locals := d.slots
    filename := ctx.options.filename
    locations := f.returning.locations }

/-- The form `e`, which has the number `k`, is compiled in the context `ctx` outside all functions,
and has the image `img`. -/
structure Compiles (options : CompileOptions) (k : Nat) (ctx : Context) (e : Expr)
    (img : Image) : Prop where
  options : ctx.options = options
  index : ctx.form = k
  frame : ctx.frame = {}
  outer : ctx.outer = []
  image : ∃ env, (form ctx e).1 = .ok (img, env)

theorem Compiles.emits {options : CompileOptions} {k : Nat} {e : Expr} {img : Image}
    (h : Compiles options k ctx e img) :
    ∃ f d, EmitsForm ctx e f d ∧ img = ⟨d.functions ++ [entry ctx f d]⟩ := by
  obtain ⟨env, hform⟩ := h.image
  unfold form at hform
  split at hform
  · cases hform
  · next f env' d hf =>
    cases hform
    exact ⟨f, d, emits_formCode hf, rfl⟩

theorem compiles_formsFrom {options : CompileOptions} {declared : List (Bytes × Nat)}
    {env : Environment} {index : Nat} {forms : List Expr} {c : Compilation}
    (h : (formsFrom options declared env index forms).1 = .ok c) :
    c.images.length = forms.length ∧
      ∀ (k : Nat) (img : Image), c.images[k]? = some img →
        ∃ e ctx, forms[k]? = some e ∧ Compiles options (index + k) ctx e img := by
  induction forms generalizing env index c with
  | nil =>
    cases h
    exact ⟨rfl, by simp⟩
  | cons e rest ih =>
    rw [formsFrom] at h
    split at h
    · cases h
    · next img env' events hform =>
      split at h
      · cases h
      · next c' more hrest =>
        cases h
        obtain ⟨hlen, himages⟩ := ih (by rw [hrest])
        refine ⟨congrArg (· + 1) hlen, fun k img' hk => ?_⟩
        cases k with
        | zero =>
          cases hk
          exact ⟨e, _, rfl, rfl, rfl, rfl, rfl, env', by rw [hform]⟩
        | succ k =>
          obtain ⟨e', ctx, he, hc⟩ := himages k img' hk
          rw [Nat.add_assoc, Nat.add_comm 1 k] at hc
          exact ⟨e', ctx, he, hc⟩

/-- Every form has its image. -/
theorem compiles_compile {options : CompileOptions} {env : Environment} {forms : List Expr}
    {c : Compilation} (h : compile options env forms = .ok c) :
    c.images.length = forms.length ∧
      ∀ (k : Nat) (img : Image), c.images[k]? = some img →
        ∃ e ctx, forms[k]? = some e ∧ Compiles options k ctx e img := by
  unfold compile run at h
  split at h
  · cases h
  · have hforms := compiles_formsFrom h
    simp only [Nat.zero_add] at hforms
    exact hforms

end Compilation

namespace EmitsForm

variable {ctx : Context} {d d₁ : Draft} {f : Fragment}

theorem publish_sound {pos : Position} {name : Bytes} {i : Nat}
    (hi : Yields (intern ctx pos (.name name)) {} i d₁) (hd : d₁.Extends d) (hf : f.Sound d) :
    (f ++ op .setDef [i]).Sound d := by
  have hpool : d.pool.length ≤ Limit.constants :=
    hd.limit ((Draft.Extends.kept.intern hi).limit (Nat.zero_le _))
  have hname := hd.pool.getElem?_eq_some hi.interned.1
  have hlt : i < 256 := Nat.lt_of_lt_of_le (List.getElem?_eq_some_iff.1 hname).1 hpool
  refine Fragment.sound_append.2 ⟨hf, Fragment.sound_instr.2 ⟨⟨rfl, by simpa using hlt⟩, ?_⟩⟩
  intro k hk
  cases hk
  exact ⟨_, hname, name, rfl⟩

theorem publish_finishes {i : Nat} (hf : f.Steady 0 0 0) :
    (f ++ op .setDef [i]).Finishes 0 0 0 :=
  (Fragment.Passes.steady_call ⟨rfl, rfl, rfl, rfl, rfl⟩ hf.passes (Nat.le_refl 0)).finishes

theorem kept {R : Draft → Draft → Prop} (hR : Draft.Kept R) {e : Expr}
    (h : EmitsForm ctx e f d) : R {} d := by
  cases h with
  | expression _ h => exact hR.emits h
  | define _ hi h | defineFunction hi h | const _ hi h => exact hR.trans (hR.intern hi) (hR.emits h)

/-- The entry of a form is well put together. -/
theorem built {e : Expr} (h : EmitsForm ctx e f d) (hframe : ctx.frame = {}) :
    (Compilation.entry ctx f d).Built d.functions f.returning.instructions := by
  have hbelow (n : Nat) : ctx.frame.Below n := by
    rw [hframe]
    exact fun c hc => by simp at hc
  have hlimit {d₁ : Draft} {pos : Position} {v : Value} {i : Nat}
      (hi : Yields (intern ctx pos v) {} i d₁) : d₁.pool.length ≤ Limit.constants :=
    (Draft.Extends.kept.intern hi).limit (Nat.zero_le _)
  have hrefers : d.Refers := h.kept Draft.kept_refers (fun k hk => by simp at hk)
  suffices hcode : f.Ends ∧ f.Sound d ∧ f.Finishes 0 0 0 from
    Fragment.built hcode.1 hcode.2.1 hcode.2.2 hrefers rfl rfl rfl
  cases h with
  | expression _ h =>
    exact ⟨h.ends rfl, h.sound (hbelow _) (Nat.zero_le _), h.flows (hbelow _) (Nat.le_refl 0)⟩
  | define _ hi h | const _ hi h =>
    exact ⟨(Fragment.ends_op _ _).append _,
      publish_sound hi h.grows (h.sound (hbelow _) (hlimit hi)),
      publish_finishes (h.flows (hbelow _) (Nat.le_refl 0))⟩
  | defineFunction hi h =>
    have hsteady : Fragment.Steady 0 0 0 _ := h.flows (hbelow _) (Nat.le_refl 0)
    exact ⟨(Fragment.ends_op _ _).append _,
      publish_sound hi h.grows (h.sound (hbelow _) (hlimit hi)),
      publish_finishes (hsteady.marked (h.ends rfl) _)⟩

end EmitsForm

theorem Compilation.Compiles.assembled {options : CompileOptions} {k : Nat} {ctx : Context}
    {e : Expr} {img : Image} (h : Compiles options k ctx e img) : Assembled img.functions := by
  obtain ⟨f, d, hf, rfl⟩ := h.emits
  exact (hf.kept Assembled.kept .nil).snoc (hf.built h.frame)

end StackLisp
