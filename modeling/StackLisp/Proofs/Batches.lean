import StackLisp.Proofs.Assembly
import StackLisp.Proofs.Portability

/-! Forms that are compiled together have the code that they have when they are compiled one after
the other. The numbers that a batch gives to its forms decide no more than which name is a form's
own. -/
namespace StackLisp

theorem Environment.lookup_insertInto {name : Bytes} {s : Symbol} (n : Bytes)
    (symbols : List (Bytes × Symbol)) :
    (insertInto name s symbols).lookup n = if n = name then some s else symbols.lookup n := by
  induction symbols with
  | nil => rw [insertInto, lookup_cons_ite]
  | cons entry rest ih =>
    obtain ⟨m, t⟩ := entry
    rw [insertInto]
    by_cases hm : name = m
    · subst hm
      rw [if_pos rfl, lookup_cons_ite, lookup_cons_ite]
      by_cases h : n = name
      · rw [if_pos h, if_pos h]
      · rw [if_neg h, if_neg h, if_neg h]
    · rw [if_neg hm]
      by_cases hlt : name < m
      · rw [if_pos hlt, lookup_cons_ite]
      · rw [if_neg hlt, lookup_cons_ite, lookup_cons_ite, ih]
        by_cases h : n = name
        · rw [if_neg fun hnm => hm (h.symm.trans hnm), if_pos h, if_pos h]
        · rw [if_neg h, if_neg h]

theorem Environment.find?_insert {env : Environment} {name : Bytes} {s : Symbol} (n : Bytes) :
    (env.insert name s).find? n = if n = name then some s else env.find? n :=
  lookup_insertInto n env.symbols

theorem Environment.find?_insert_eq_none {env : Environment} {name : Bytes} {s : Symbol}
    {n : Bytes} :
    (env.insert name s).find? n = none ↔ env.find? n = none ∧ some name ≠ some n := by
  rw [find?_insert]
  by_cases h : n = name
  · simp [h]
  · have hname : name ≠ n := fun hn => h hn.symm
    simp [h, hname]

namespace Compilation

open Lower

variable {options : CompileOptions} {env env₁ env₂ : Environment}
  {declared : List (Bytes × Nat)}

/-- The names that forms introduce. -/
def introduced (forms : List Expr) : List Bytes := forms.filterMap declaredName?

/-- No form introduces a name that is there already, nor one that another form introduces. -/
structure Fresh (env : Environment) (forms : List Expr) : Prop where
  absent : ∀ n ∈ introduced forms, env.find? n = none
  distinct : (introduced forms).Nodup

/-- The name of each form, and no other, has the number of the form. -/
def Numbered (declared : List (Bytes × Nat)) : Nat → List Expr → Prop
  | _, [] => True
  | index, e :: rest =>
    (∀ n, declared.lookup n = some index ↔ declaredName? e = some n) ∧
      Numbered declared (index + 1) rest

theorem introduced_cons_of_none {e : Expr} {rest : List Expr} (h : declaredName? e = none) :
    introduced (e :: rest) = introduced rest :=
  List.filterMap_cons_none h

theorem introduced_cons_of_some {e : Expr} {rest : List Expr} {n : Bytes}
    (h : declaredName? e = some n) : introduced (e :: rest) = n :: introduced rest :=
  List.filterMap_cons_some h

theorem fresh_nil : Fresh env [] := ⟨nofun, List.nodup_nil⟩

theorem fresh_cons_of_none {e : Expr} {rest : List Expr} (h : declaredName? e = none) :
    Fresh env (e :: rest) ↔ Fresh env rest := by
  have hnames : introduced (e :: rest) = introduced rest := introduced_cons_of_none h
  constructor
  · rintro ⟨habsent, hdistinct⟩
    rw [hnames] at habsent hdistinct
    exact ⟨habsent, hdistinct⟩
  · rintro ⟨habsent, hdistinct⟩
    rw [← hnames] at habsent hdistinct
    exact ⟨habsent, hdistinct⟩

theorem fresh_cons_of_some {e : Expr} {rest : List Expr} {n : Bytes}
    (h : declaredName? e = some n) :
    Fresh env (e :: rest) ↔ env.find? n = none ∧ n ∉ introduced rest ∧ Fresh env rest := by
  have hnames : introduced (e :: rest) = n :: introduced rest := introduced_cons_of_some h
  constructor
  · rintro ⟨habsent, hdistinct⟩
    rw [hnames] at habsent hdistinct
    obtain ⟨hn, habsent⟩ := List.forall_mem_cons.1 habsent
    obtain ⟨hnot, hdistinct⟩ := List.nodup_cons.1 hdistinct
    exact ⟨hn, hnot, habsent, hdistinct⟩
  · rintro ⟨hn, hnot, habsent, hdistinct⟩
    refine ⟨?_, ?_⟩
    · rw [hnames]
      exact List.forall_mem_cons.2 ⟨hn, habsent⟩
    · rw [hnames]
      exact List.nodup_cons.2 ⟨hnot, hdistinct⟩

section Declarations
variable {acc : List (Bytes × Nat)} {index : Nat} {forms : List Expr}

/-- Names are added with the numbers from `index` on; what has a lower number stays. -/
theorem lookup_declarations_of_lt (h : declarations env acc index forms = .ok declared) {n : Bytes}
    {i : Nat} (hi : i < index) : declared.lookup n = some i ↔ acc.lookup n = some i := by
  induction forms generalizing acc index with
  | nil =>
    cases h
    rfl
  | cons e rest ih =>
    rw [declarations] at h
    split at h
    · exact ih h (by omega)
    · next name hname =>
      split at h
      · cases h
      · next hnew =>
        have hnone : acc.lookup name = none := by
          cases hl : acc.lookup name with
          | none => rfl
          | some k => exact absurd (.inr (by rw [hl]; rfl)) hnew
        rw [ih h (by omega), lookup_cons_ite]
        by_cases hn : n = name
        · have hne : index ≠ i := by omega
          simp [hn, hnone, hne]
        · rw [if_neg hn]

theorem numbered_declarations (h : declarations env acc index forms = .ok declared)
    (hacc : ∀ n i, acc.lookup n = some i → i < index) : Numbered declared index forms := by
  induction forms generalizing acc index with
  | nil => trivial
  | cons e rest ih =>
    rw [declarations] at h
    split at h
    · next hname =>
      refine ⟨fun n => ?_, ih h fun n i hn => Nat.lt_succ_of_lt (hacc n i hn)⟩
      rw [lookup_declarations_of_lt h (Nat.lt_succ_self index), hname]
      constructor
      · intro hn
        exact absurd (hacc n index hn) (Nat.lt_irrefl index)
      · nofun
    · next name hname =>
      split at h
      · cases h
      · have hnext : ∀ n i, ((name, index) :: acc).lookup n = some i → i < index + 1 := by
          intro n i hn
          rw [lookup_cons_ite] at hn
          by_cases heq : n = name
          · rw [if_pos heq] at hn
            cases hn
            exact Nat.lt_succ_self index
          · rw [if_neg heq] at hn
            exact Nat.lt_succ_of_lt (hacc n i hn)
        refine ⟨fun n => ?_, ih h hnext⟩
        rw [lookup_declarations_of_lt h (Nat.lt_succ_self index), hname, lookup_cons_ite]
        by_cases heq : n = name
        · rw [if_pos heq, heq]
          simp
        · rw [if_neg heq]
          constructor
          · intro hn
            exact absurd (hacc n index hn) (Nat.lt_irrefl index)
          · intro hn
            cases hn
            exact absurd rfl heq

/-- The names of forms can be collected exactly if all of them are new. -/
theorem declarations_isOk :
    (∃ declared, declarations env acc index forms = .ok declared) ↔
      Fresh env forms ∧ ∀ n ∈ introduced forms, acc.lookup n = none := by
  induction forms generalizing acc index with
  | nil => exact ⟨fun _ => ⟨fresh_nil, nofun⟩, fun _ => ⟨acc, rfl⟩⟩
  | cons e rest ih =>
    cases hname : declaredName? e with
    | none =>
      rw [declarations, hname, fresh_cons_of_none hname, introduced_cons_of_none hname]
      exact ih
    | some name =>
      rw [declarations, hname, fresh_cons_of_some hname, introduced_cons_of_some hname]
      dsimp only
      constructor
      · rintro ⟨declared, h⟩
        split at h
        · cases h
        · next hnew =>
          have hnew : env.find? name = none ∧ acc.lookup name = none := by
            simpa only [not_or, Bool.not_eq_true, Option.isSome_eq_false_iff,
              Option.isNone_iff_eq_none] using hnew
          obtain ⟨hfresh, hl⟩ := ih.1 ⟨declared, h⟩
          have hother : ∀ n ∈ introduced rest, n ≠ name ∧ acc.lookup n = none := by
            intro n hn
            have hln := hl n hn
            rw [lookup_cons_ite] at hln
            by_cases heq : n = name
            · rw [if_pos heq] at hln
              cases hln
            · rw [if_neg heq] at hln
              exact ⟨heq, hln⟩
          exact ⟨⟨hnew.1, fun hmem => (hother name hmem).1 rfl, hfresh⟩,
            List.forall_mem_cons.2 ⟨hnew.2, fun n hn => (hother n hn).2⟩⟩
      · rintro ⟨⟨habsent, hnot, hfresh⟩, hl⟩
        obtain ⟨hacc, hl⟩ := List.forall_mem_cons.1 hl
        rw [if_neg (by rw [habsent, hacc]; simp)]
        refine ih.2 ⟨hfresh, fun n hn => ?_⟩
        have heq : n ≠ name := fun heq => hnot (heq ▸ hn)
        rw [lookup_cons_ite, if_neg heq]
        exact hl n hn

theorem fresh_of_declarations (h : declarations env acc index forms = .ok declared) :
    Fresh env forms :=
  (declarations_isOk.1 ⟨declared, h⟩).1

theorem Fresh.declarations (h : Fresh env forms) :
    ∃ declared, declarations env [] 0 forms = .ok declared := by
  have hempty : ∀ n ∈ introduced forms, ([] : List (Bytes × Nat)).lookup n = none :=
    fun _ _ => rfl
  exact declarations_isOk.2 ⟨h, hempty⟩

end Declarations

/-- A form has an image exactly if it has code. -/
theorem form_eq_ok {ctx : Context} {e : Expr} {img : Image} :
    (form ctx e).1 = .ok (img, env₁) ↔
      ∃ f d, Yields (formCode ctx e) {} (f, env₁) d ∧ img = ⟨d.functions ++ [entry ctx f d]⟩ := by
  unfold form
  split
  · next r d hcode =>
    constructor
    · intro h
      cases h
    · rintro ⟨f, d', hyields, -⟩
      cases hcode.symm.trans hyields
  · next f env d hcode =>
    constructor
    · intro h
      cases h
      exact ⟨f, d, hcode, rfl⟩
    · rintro ⟨f', d', hyields, rfl⟩
      cases hcode.symm.trans hyields
      rfl

theorem formCode_of_declaredName? {ctx : Context} {e : Expr} (h : declaredName? e = none) :
    formCode ctx e = Lower.expr ctx .tail 0 0 e >>= fun f => pure (f, ctx.env) := by
  cases e with
  | define | const => cases h
  | _ => rfl

theorem env_define {ctx : Context} {pos : Position} {name : Bytes} {value : Expr} {img : Image}
    (h : (form ctx (.define pos name value)).1 = .ok (img, env₁)) :
    env₁ = ctx.env.insert name (.definition (arityOf value)) := by
  obtain ⟨f, d, hcode, -⟩ := form_eq_ok.1 h
  rw [formCode] at hcode
  obtain ⟨g, d₁, -, hp⟩ := yields_bind.1 hcode
  cases (yields_pure.1 hp).1
  rfl

theorem env_const {ctx : Context} {pos : Position} {name : Bytes} {value : Expr} {img : Image}
    (h : (form ctx (.const pos name value)).1 = .ok (img, env₁)) :
    ∃ v, value.fold? ctx = some v ∧ env₁ = ctx.env.insert name (.constant v) := by
  obtain ⟨f, d, hcode, -⟩ := form_eq_ok.1 h
  rw [formCode] at hcode
  obtain ⟨⟨g, w⟩, d₁, hconst, hp⟩ := yields_bind.1 hcode
  cases (yields_pure.1 hp).1
  unfold const at hconst
  split at hconst
  · exact absurd hconst not_yields_refuse
  · next v hv =>
    obtain ⟨i, d₂, -, hrest⟩ := yields_bind.1 hconst
    obtain ⟨g', d₃, -, hp⟩ := yields_bind.1 hrest
    cases (yields_pure.1 hp).1
    exact ⟨w, hv, rfl⟩

/-- The environment behind a form has one more symbol if the form introduces a name. -/
theorem env_form {ctx : Context} {e : Expr} {img : Image}
    (h : (form ctx e).1 = .ok (img, env₁)) :
    (declaredName? e = none ∧ env₁ = ctx.env) ∨
      ∃ name s, declaredName? e = some name ∧ env₁ = ctx.env.insert name s := by
  cases hname : declaredName? e with
  | none =>
    obtain ⟨f, d, hcode, -⟩ := form_eq_ok.1 h
    rw [formCode_of_declaredName? hname] at hcode
    obtain ⟨g, d₁, -, hp⟩ := yields_bind.1 hcode
    cases (yields_pure.1 hp).1
    exact .inl ⟨rfl, rfl⟩
  | some m =>
    cases e with
    | define pos name value =>
      cases hname
      exact .inr ⟨_, _, rfl, env_define h⟩
    | const pos name value =>
      cases hname
      obtain ⟨v, -, henv⟩ := env_const h
      exact .inr ⟨_, _, rfl, henv⟩
    | _ => cases hname

/-- A form that is compiled makes its name known, and no other. -/
theorem find?_form {ctx : Context} {e : Expr} {img : Image}
    (h : (form ctx e).1 = .ok (img, env₁)) (n : Bytes) :
    env₁.find? n = none ↔ ctx.env.find? n = none ∧ declaredName? e ≠ some n := by
  rcases env_form h with ⟨hnone, rfl⟩ | ⟨name, s, hname, rfl⟩
  · rw [hnone]
    exact ⟨fun hn => ⟨hn, by intro h; cases h⟩, And.left⟩
  · rw [hname]
    exact Environment.find?_insert_eq_none

theorem find?_form_of_ne {ctx : Context} {e : Expr} {img : Image}
    (h : (form ctx e).1 = .ok (img, env₁)) {n : Bytes} (hn : declaredName? e ≠ some n) :
    env₁.find? n = ctx.env.find? n := by
  rcases env_form h with ⟨-, rfl⟩ | ⟨name, s, hname, rfl⟩
  · rfl
  · rw [Environment.find?_insert, if_neg]
    rintro rfl
    exact hn hname

/-- Forms are new exactly if the first is, and the others are new after it. -/
theorem fresh_cons {ctx : Context} {e : Expr} {rest : List Expr} {img : Image}
    (h : (form ctx e).1 = .ok (img, env₁)) :
    Fresh ctx.env (e :: rest) ↔ Fresh ctx.env [e] ∧ Fresh env₁ rest := by
  have hfind := find?_form h
  cases hname : declaredName? e with
  | none =>
    have hsame : ∀ n, env₁.find? n = none ↔ ctx.env.find? n = none := fun n => by
      rw [hfind n, hname]
      simp
    rw [fresh_cons_of_none hname, fresh_cons_of_none hname]
    constructor
    · intro hrest
      exact ⟨fresh_nil, fun n hn => (hsame n).2 (hrest.absent n hn), hrest.distinct⟩
    · rintro ⟨-, hrest⟩
      exact ⟨fun n hn => (hsame n).1 (hrest.absent n hn), hrest.distinct⟩
  | some name =>
    rw [fresh_cons_of_some hname, fresh_cons_of_some hname]
    constructor
    · rintro ⟨hn, hnot, hrest⟩
      refine ⟨⟨hn, nofun, fresh_nil⟩, fun m hm => (hfind m).2 ⟨hrest.absent m hm, ?_⟩,
        hrest.distinct⟩
      rw [hname]
      intro heq
      cases heq
      exact hnot hm
    · rintro ⟨⟨hn, -, -⟩, hrest⟩
      have hother : ∀ m ∈ introduced rest, ctx.env.find? m = none ∧ m ≠ name := fun m hm => by
        obtain ⟨h₁, h₂⟩ := (hfind m).1 (hrest.absent m hm)
        exact ⟨h₁, fun heq => h₂ (by rw [hname, heq])⟩
      exact ⟨hn, fun hmem => (hother name hmem).2 rfl, fun m hm => (hother m hm).1,
        hrest.distinct⟩

/-- The number of a form does not matter, if its own name has this number and no other name has. -/
theorem form_renumbered {declared' : List (Bytes × Nat)} {i j : Nat} {e : Expr} {img : Image}
    (hi : ∀ n, declared.lookup n = some i ↔ declaredName? e = some n)
    (hj : ∀ n, declared'.lookup n = some j ↔ declaredName? e = some n)
    (h : (form { options, env, declared, form := i } e).1 = .ok (img, env₁)) :
    (form { options, env, declared := declared', form := j } e).1 = .ok (img, env₁) := by
  have hweaker : Context.Weaker { options, env, declared, form := i }
      { options, env, declared := declared', form := j } :=
    ⟨⟨rfl, rfl, rfl⟩, fun _ => .rfl, rfl, rfl, id, fun n hn => (hj n).2 ((hi n).1 hn)⟩
  exact form_of_served hweaker.toTwin
    (formServed_of_serving Context.Weaker.serving hweaker e) h

/-- What the forms of a list give when they are compiled one by one. -/
inductive Stepwise (options : CompileOptions) : Environment → List Expr → Compilation → Prop where
  | nil {env : Environment} : Stepwise options env [] ⟨[], env⟩
  | cons {env env₁ : Environment} {e : Expr} {rest : List Expr} {img : Image} {c : Compilation} :
      compile options env [e] = .ok ⟨[img], env₁⟩ → Stepwise options env₁ rest c →
      Stepwise options env (e :: rest) ⟨img :: c.images, c.env⟩

theorem formsFrom_cons {index : Nat} {e : Expr} {rest : List Expr} {c : Compilation} :
    (formsFrom options declared env index (e :: rest)).1 = .ok c ↔
      ∃ img env₁ c₁, (form { options, env, declared, form := index } e).1 = .ok (img, env₁) ∧
        (formsFrom options declared env₁ (index + 1) rest).1 = .ok c₁ ∧
        c = ⟨img :: c₁.images, c₁.env⟩ := by
  rw [formsFrom]
  rcases hform : form { options, env, declared, form := index } e with ⟨r, events⟩
  cases r with
  | error r => simp
  | ok p =>
    obtain ⟨img, env₁⟩ := p
    dsimp only
    rcases hrest : formsFrom options declared env₁ (index + 1) rest with ⟨r, more⟩
    cases r with
    | error r =>
      constructor
      · intro h
        cases h
      · rintro ⟨img', env', c₁, hok, hc₁, -⟩
        cases hok
        rw [hrest] at hc₁
        cases hc₁
    | ok c₁ =>
      constructor
      · intro h
        cases h
        exact ⟨img, env₁, c₁, rfl, by rw [hrest], rfl⟩
      · rintro ⟨img', env', c₂, hok, hc₂, rfl⟩
        cases hok
        rw [hrest] at hc₂
        cases hc₂
        rfl

theorem compile_eq_ok {forms : List Expr} {c : Compilation} :
    compile options env forms = .ok c ↔
      ∃ declared, declarations env [] 0 forms = .ok declared ∧
        (formsFrom options declared env 0 forms).1 = .ok c := by
  unfold compile run
  split
  · next r hr =>
    simp [hr]
  · next declared hd =>
    constructor
    · exact fun h => ⟨declared, hd, h⟩
    · rintro ⟨declared', hd', h⟩
      rw [hd] at hd'
      cases hd'
      exact h

theorem compiles_formsFrom_fresh {index : Nat} {forms : List Expr} {c : Compilation}
    (hfresh : Fresh env forms) (h : (formsFrom options declared env index forms).1 = .ok c)
    {k : Nat} {e : Expr} {img : Image} (hk : forms[k]? = some e)
    (himg : c.images[k]? = some img) :
    ∃ ctx, Compiles options (index + k) ctx e img ∧ Fresh ctx.env [e] := by
  induction forms generalizing env index c k with
  | nil => simp at hk
  | cons x rest ih =>
    obtain ⟨img', env₁, c₁, hform, hrest, rfl⟩ := formsFrom_cons.1 h
    obtain ⟨hone, hothers⟩ := (fresh_cons hform).1 hfresh
    cases k with
    | zero =>
      cases hk
      cases himg
      exact ⟨_, ⟨rfl, rfl, rfl, rfl, env₁, hform⟩, hone⟩
    | succ k =>
      obtain ⟨ctx, hctx, hnew⟩ := ih hothers hrest hk himg
      rw [Nat.add_assoc, Nat.add_comm 1 k] at hctx
      exact ⟨ctx, hctx, hnew⟩

/-- A form that is compiled in a batch introduces a name that is new where the form stands. -/
theorem compiles_fresh {forms : List Expr} {c : Compilation}
    (h : compile options env forms = .ok c) {k : Nat} {e : Expr} {img : Image}
    (hk : forms[k]? = some e) (himg : c.images[k]? = some img) :
    ∃ ctx, Compiles options k ctx e img ∧ Fresh ctx.env [e] := by
  obtain ⟨declared, hd, hforms⟩ := compile_eq_ok.1 h
  have hform := compiles_formsFrom_fresh (fresh_of_declarations hd) hforms hk himg
  rwa [Nat.zero_add] at hform

/-- One form is compiled alone as it is compiled anywhere in a batch. -/
theorem compile_singleton {index : Nat} {e : Expr} {img : Image}
    (hown : ∀ n, declared.lookup n = some index ↔ declaredName? e = some n) :
    compile options env [e] = .ok ⟨[img], env₁⟩ ↔
      Fresh env [e] ∧
        (form { options, env, declared, form := index } e).1 = .ok (img, env₁) := by
  rw [compile_eq_ok]
  constructor
  · rintro ⟨declared', hd, h⟩
    obtain ⟨img', env', c₁, hform, hnil, hc⟩ := formsFrom_cons.1 h
    cases hnil
    cases hc
    have hnumbered := numbered_declarations hd nofun
    exact ⟨fresh_of_declarations hd, form_renumbered hnumbered.1 hown hform⟩
  · rintro ⟨hfresh, hform⟩
    obtain ⟨declared', hd⟩ := hfresh.declarations
    have hnumbered := numbered_declarations hd nofun
    exact ⟨declared', hd,
      formsFrom_cons.2 ⟨img, env₁, _, form_renumbered hown hnumbered.1 hform, rfl, rfl⟩⟩

/-- In a batch that numbers its forms, each is compiled as it is alone. -/
theorem formsFrom_iff_stepwise {index : Nat} {forms : List Expr} {c : Compilation}
    (hnumbered : Numbered declared index forms) :
    Fresh env forms ∧ (formsFrom options declared env index forms).1 = .ok c ↔
      Stepwise options env forms c := by
  induction forms generalizing env index c with
  | nil =>
    constructor
    · rintro ⟨-, h⟩
      cases h
      exact .nil
    · intro h
      cases h
      exact ⟨fresh_nil, rfl⟩
  | cons e rest ih =>
    obtain ⟨hown, hrest⟩ := hnumbered
    constructor
    · rintro ⟨hfresh, h⟩
      obtain ⟨img, env₁, c₁, hform, hforms, rfl⟩ := formsFrom_cons.1 h
      obtain ⟨hone, hothers⟩ := (fresh_cons hform).1 hfresh
      exact .cons ((compile_singleton hown).2 ⟨hone, hform⟩) ((ih hrest).1 ⟨hothers, hforms⟩)
    · intro h
      cases h with
      | cons hone hstep =>
      obtain ⟨hfresh, hform⟩ := (compile_singleton hown).1 hone
      obtain ⟨hothers, hforms⟩ := (ih hrest).2 hstep
      exact ⟨(fresh_cons hform).2 ⟨hfresh, hothers⟩,
        formsFrom_cons.2 ⟨_, _, _, hform, hforms, rfl⟩⟩

/-- Each step makes a name known, so the steps have new names throughout. -/
theorem Stepwise.fresh {forms : List Expr} {c : Compilation} (h : Stepwise options env forms c) :
    Fresh env forms := by
  induction h with
  | nil => exact fresh_nil
  | cons hone _ ih =>
    obtain ⟨declared, hd, hforms⟩ := compile_eq_ok.1 hone
    obtain ⟨img, env', c', hform, hnil, hc⟩ := formsFrom_cons.1 hforms
    cases hnil
    cases hc
    exact (fresh_cons hform).2 ⟨fresh_of_declarations hd, ih⟩

theorem compile_iff_stepwise {forms : List Expr} {c : Compilation} :
    compile options env forms = .ok c ↔ Stepwise options env forms c := by
  rw [compile_eq_ok]
  constructor
  · rintro ⟨declared, hd, h⟩
    exact (formsFrom_iff_stepwise (numbered_declarations hd nofun)).1
      ⟨fresh_of_declarations hd, h⟩
  · intro h
    obtain ⟨declared, hd⟩ := h.fresh.declarations
    exact ⟨declared, hd, ((formsFrom_iff_stepwise (numbered_declarations hd nofun)).2 h).2⟩

theorem stepwise_append {xs ys : List Expr} {c : Compilation} :
    Stepwise options env (xs ++ ys) c ↔
      ∃ c₁ c₂, Stepwise options env xs c₁ ∧ Stepwise options c₁.env ys c₂ ∧
        c = ⟨c₁.images ++ c₂.images, c₂.env⟩ := by
  induction xs generalizing env c with
  | nil =>
    constructor
    · exact fun h => ⟨⟨[], env⟩, c, .nil, h, rfl⟩
    · rintro ⟨c₁, c₂, h₁, h₂, rfl⟩
      cases h₁
      exact h₂
  | cons e rest ih =>
    constructor
    · intro h
      cases h with
      | cons hone hstep =>
      obtain ⟨c₁, c₂, h₁, h₂, rfl⟩ := ih.1 hstep
      exact ⟨_, c₂, .cons hone h₁, h₂, rfl⟩
    · rintro ⟨_, c₂, h₁, h₂, rfl⟩
      cases h₁ with
      | cons hone hstep => exact .cons hone (ih.2 ⟨_, c₂, hstep, h₂, rfl⟩)

/-- A single form has a single image. -/
theorem images_singleton {e : Expr} {c : Compilation} (h : compile options env [e] = .ok c) :
    ∃ img, c = ⟨[img], c.env⟩ := by
  obtain ⟨declared, -, hforms⟩ := compile_eq_ok.1 h
  obtain ⟨img, env₁, c₁, -, hnil, rfl⟩ := formsFrom_cons.1 hforms
  cases hnil
  exact ⟨img, rfl⟩

theorem runEach_iff_stepwise {forms : List Expr} {c : Compilation} :
    (runEach options env forms).1 = c ∧ (runEach options env forms).2.1 = none ↔
      Stepwise options env forms c := by
  induction forms generalizing env c with
  | nil =>
    constructor
    · rintro ⟨rfl, -⟩
      exact .nil
    · intro h
      cases h
      exact ⟨rfl, rfl⟩
  | cons e rest ih =>
    rw [runEach]
    rcases hrun : run options env [e] with ⟨r, events⟩
    cases r with
    | error r =>
      constructor
      · rintro ⟨-, hnone⟩
        cases hnone
      · intro h
        cases h with
        | cons hone _ =>
        rw [compile, hrun] at hone
        cases hone
    | ok c₁ =>
      have hcompile : compile options env [e] = .ok c₁ := by rw [compile, hrun]
      obtain ⟨img, hc₁⟩ := images_singleton hcompile
      constructor
      · rintro ⟨rfl, hnone⟩
        rw [hc₁] at hcompile
        have hstep := ih.1 ⟨rfl, hnone⟩
        have himages : c₁.images = [img] := congrArg Compilation.images hc₁
        dsimp only
        rw [himages]
        exact .cons hcompile hstep
      · intro h
        cases h with
        | cons hone hstep =>
        rw [hcompile] at hone
        cases hone
        obtain ⟨hvalue, hnone⟩ := ih.2 hstep
        refine ⟨?_, hnone⟩
        dsimp only
        rw [hvalue]
        rfl

/-- Each image of a batch is that of its form alone, in the environment that the forms before it
leave. -/
theorem compile_in_force {forms : List Expr} {c : Compilation}
    (h : compile options env forms = .ok c) {k : Nat} {img : Image}
    (himg : c.images[k]? = some img) :
    ∃ e c₀ env₁, forms[k]? = some e ∧ compile options env (forms.take k) = .ok c₀ ∧
      compile options c₀.env [e] = .ok ⟨[img], env₁⟩ ∧
      compile options env (forms.take (k + 1)) = .ok ⟨c₀.images ++ [img], env₁⟩ := by
  obtain ⟨e, ctx, hk, -⟩ := (compiles_compile h).2 k img himg
  obtain ⟨hlt, hget⟩ := List.getElem?_eq_some_iff.1 hk
  have hsplit : forms = forms.take k ++ e :: forms.drop (k + 1) := by
    rw [← hget, ← List.drop_eq_getElem_cons hlt, List.take_append_drop]
  have htake : forms.take (k + 1) = forms.take k ++ [e] := by
    rw [List.take_add_one, hk]
    rfl
  have hsteps := compile_iff_stepwise.1 h
  rw [hsplit] at hsteps
  obtain ⟨c₀, c₂, hfront, hrest, rfl⟩ := stepwise_append.1 hsteps
  cases hrest with
  | @cons _ env₁ _ _ img' c₃ hone _ =>
    have hcompile := compile_iff_stepwise.2 hfront
    have hlength : c₀.images.length = k := by
      rw [(compiles_compile hcompile).1, List.length_take, Nat.min_eq_left (Nat.le_of_lt hlt)]
    have hsame : img' = img := by
      rw [← hlength, List.getElem?_append_right (Nat.le_refl _), Nat.sub_self] at himg
      exact Option.some.inj himg
    subst hsame
    refine ⟨e, c₀, env₁, hk, hcompile, hone, ?_⟩
    rw [htake, compile_iff_stepwise]
    exact stepwise_append.2 ⟨c₀, _, hfront, compile_iff_stepwise.1 hone, rfl⟩

/-- A form that is compiled alone introduces a new name, and is compiled where just the names of the
environment are known. -/
theorem compiles_alone {e : Expr} {img : Image}
    (h : compile options env [e] = .ok ⟨[img], env₁⟩) :
    Fresh env [e] ∧ ∃ ctx, Compiles options 0 ctx e img ∧ ctx.env = env ∧
      (form ctx e).1 = .ok (img, env₁) := by
  obtain ⟨declared, hd, hforms⟩ := compile_eq_ok.1 h
  obtain ⟨img', env', c₁, hform, hnil, hc⟩ := formsFrom_cons.1 hforms
  cases hnil
  cases hc
  exact ⟨fresh_of_declarations hd, _, ⟨rfl, rfl, rfl, rfl, _, hform⟩, rfl, hform⟩

/-- Forms that are compiled together, in two batches or one by one have the same code, and leave
the same environment, whenever one of these ways succeeds. -/
theorem compile_append (options : CompileOptions) (env : Environment) (xs ys : List Expr)
    (c : Compilation) :
    (compile options env (xs ++ ys) = .ok c ↔
      ∃ c₁ c₂, compile options env xs = .ok c₁ ∧ compile options c₁.env ys = .ok c₂ ∧
        c = ⟨c₁.images ++ c₂.images, c₂.env⟩) ∧
    (compile options env xs = .ok c ↔
      (runEach options env xs).1 = c ∧ (runEach options env xs).2.1 = none) := by
  constructor
  · simp only [compile_iff_stepwise]
    exact stepwise_append
  · rw [compile_iff_stepwise, runEach_iff_stepwise]

end Compilation
end StackLisp
