import StackLisp.Lowering

/-! What the steps of compilation do when they succeed. -/
namespace StackLisp.Lower

/-- From the draft `d` the step succeeds with the result `a` and leaves the draft `d'`. -/
def Yields {α : Type} (m : Lower α) (d : Draft) (a : α) (d' : Draft) : Prop := m d = (.ok a, d')

section
variable {α β : Type} {d d' : Draft}

@[simp] theorem yields_pure {a b : α} : Yields (pure a) d b d' ↔ a = b ∧ d = d' := by
  change ((Except.ok a, d) = (Except.ok b, d')) ↔ _
  simp

theorem yields_bind {m : Lower α} {k : α → Lower β} {b : β} :
    Yields (m >>= k) d b d' ↔ ∃ a d₁, Yields m d a d₁ ∧ Yields (k a) d₁ b d' := by
  unfold Yields
  change ExceptT.bindCont k (m d).1 (m d).2 = _ ↔ _
  rcases hm : m d with ⟨r, d₁⟩
  cases r with
  | error e =>
    constructor
    · intro h
      cases h
    · rintro ⟨_, _, h, _⟩
      cases h
  | ok a =>
    refine ⟨fun h => ⟨a, d₁, rfl, h⟩, ?_⟩
    rintro ⟨a', d₁', h, hk⟩
    cases h
    exact hk

theorem yields_map {m : Lower α} {g : α → β} {b : β} :
    Yields (g <$> m) d b d' ↔ ∃ a, Yields m d a d' ∧ g a = b := by
  rw [show g <$> m = m >>= fun a => pure (g a) from (bind_pure_comp g m).symm, yields_bind]
  constructor
  · rintro ⟨a, d₁, hm, hp⟩
    obtain ⟨rfl, rfl⟩ := yields_pure.1 hp
    exact ⟨a, hm, rfl⟩
  · rintro ⟨a, hm, rfl⟩
    exact ⟨a, d', hm, yields_pure.2 ⟨rfl, rfl⟩⟩

@[simp] theorem not_yields_refuse {pos : Position} {r : Refusal} {a : α} :
    ¬ Yields (refuse pos r) d a d' := by
  change ¬ ((Except.error _, d) = (Except.ok a, d'))
  simp

@[simp] theorem yields_get {a : Draft} : Yields get d a d' ↔ d = a ∧ d = d' := by
  change ((Except.ok d, d) = (Except.ok a, d')) ↔ _
  simp

@[simp] theorem yields_set {e : Draft} {u : PUnit} : Yields (set e) d u d' ↔ e = d' := by
  change ((Except.ok _, e) = (Except.ok u, d')) ↔ _
  simp

@[simp] theorem yields_modify {g : Draft → Draft} {u : PUnit} :
    Yields (modify g) d u d' ↔ g d = d' := by
  change ((Except.ok _, g d) = (Except.ok u, d')) ↔ _
  simp

end

variable {ctx : Context} {pos : Position} {d d' : Draft}

theorem yields_addConstant {c : Constant} {i : Nat} :
    Yields (addConstant ctx pos c) d i d' ↔
      d.pool.length < Limit.constants ∧ i = d.pool.length ∧
        d' = { d with pool := d.pool ++ [c] } := by
  simp only [addConstant, yields_bind, yields_get]
  constructor
  · rintro ⟨_, _, ⟨rfl, rfl⟩, h⟩
    split at h
    · exact absurd h not_yields_refuse
    · obtain ⟨_, _, hs, hp⟩ := yields_bind.1 h
      rw [yields_set] at hs
      obtain ⟨rfl, rfl⟩ := yields_pure.1 hp
      exact ⟨by omega, rfl, hs.symm⟩
  · rintro ⟨hlt, rfl, rfl⟩
    refine ⟨d, d, ⟨rfl, rfl⟩, ?_⟩
    rw [if_neg (by omega)]
    exact yields_bind.2 ⟨⟨⟩, _, yields_set.2 rfl, yields_pure.2 ⟨rfl, rfl⟩⟩

/-- A value keeps its index if it is in the pool; otherwise it is added at the end. -/
theorem yields_intern {v : Value} {i : Nat} :
    Yields (intern ctx pos v) d i d' ↔
      (d.pool.idxOf? (.value v) = some i ∧ d' = d) ∨
      (d.pool.idxOf? (.value v) = none ∧ Yields (addConstant ctx pos (.value v)) d i d') := by
  simp only [intern, yields_bind, yields_get]
  constructor
  · rintro ⟨_, _, ⟨rfl, rfl⟩, h⟩
    split at h
    · next j hj =>
      obtain ⟨rfl, rfl⟩ := yields_pure.1 h
      exact .inl ⟨hj, rfl⟩
    · next hj => exact .inr ⟨hj, h⟩
  · intro h
    refine ⟨d, d, ⟨rfl, rfl⟩, ?_⟩
    rcases h with ⟨hj, rfl⟩ | ⟨hj, h⟩
    · rw [hj]
      exact yields_pure.2 ⟨rfl, rfl⟩
    · rw [hj]
      exact h

/-- What interning a value does to the draft: the index leads to the value. -/
theorem Yields.interned {v : Value} {i : Nat} (h : Yields (intern ctx pos v) d i d') :
    d'.pool[i]? = some (.value v) ∧ d'.functions = d.functions ∧
      (d'.pool = d.pool ∨ d.pool.length < Limit.constants ∧ d'.pool = d.pool ++ [.value v]) := by
  rcases yields_intern.1 h with ⟨hi, rfl⟩ | ⟨_, hadd⟩
  · obtain ⟨hlt, hget, _⟩ := List.findIdx?_eq_some_iff_getElem.1 hi
    refine ⟨?_, rfl, .inl rfl⟩
    rw [List.getElem?_eq_getElem hlt]
    simpa using hget
  · obtain ⟨hlt, rfl, rfl⟩ := yields_addConstant.1 hadd
    exact ⟨by simp, rfl, .inr ⟨hlt, rfl⟩⟩

/-- The code that loads a value without the pool. -/
def immediate : Value → Option Opcode
  | .unit => some .unit
  | .bool true => some .truth
  | .bool false => some .falsity
  | _ => none

theorem yields_load {v : Value} {f : Fragment} :
    Yields (load ctx pos v) d f d' ↔
      (∃ o, immediate v = some o ∧ f = Fragment.op o ∧ d' = d) ∨
      (immediate v = none ∧
        ∃ i, Yields (intern ctx pos v) d i d' ∧ f = Fragment.instr (.indexed .const i)) := by
  have pooled (hv : immediate v = none)
      (hl : load ctx pos v = do
        let i ← intern ctx pos v
        pure (Fragment.instr (.indexed .const i))) :
      Yields (load ctx pos v) d f d' ↔
        ∃ i, Yields (intern ctx pos v) d i d' ∧ f = Fragment.instr (.indexed .const i) := by
    rw [hl, yields_bind]
    constructor
    · rintro ⟨i, _, hi, hp⟩
      obtain ⟨rfl, rfl⟩ := yields_pure.1 hp
      exact ⟨i, hi, rfl⟩
    · rintro ⟨i, hi, rfl⟩
      exact ⟨i, d', hi, yields_pure.2 ⟨rfl, rfl⟩⟩
  cases v with
  | unit => simp [load, immediate, eq_comm]
  | bool b => cases b <;> simp [load, immediate, eq_comm]
  | int i => simpa [immediate] using pooled rfl rfl
  | float x => simpa [immediate] using pooled rfl rfl
  | string s => simpa [immediate] using pooled rfl rfl
  | char c => simpa [immediate] using pooled rfl rfl
  | name n => simpa [immediate] using pooled rfl rfl

/-- A name is used only if it is bound. -/
theorem yields_resolve {name : Bytes} {r : Resolution} :
    Yields (resolve ctx pos name) d r d' ↔ ctx.lookup name = r ∧ r ≠ .unbound ∧ d = d' := by
  unfold resolve
  split
  · next h =>
    rw [h]
    constructor
    · intro hy
      split at hy <;> exact absurd hy not_yields_refuse
    · rintro ⟨rfl, hne, _⟩
      exact absurd rfl hne
  · next hr =>
    rw [yields_pure]
    constructor
    · rintro ⟨rfl, rfl⟩
      exact ⟨rfl, hr, rfl⟩
    · rintro ⟨rfl, _, rfl⟩
      exact ⟨rfl, rfl⟩

theorem yields_loadName {name : Bytes} {f : Fragment} (h : Yields (loadName ctx pos name) d f d') :
    (∃ s, ctx.lookup name = .slot s ∧ f = Fragment.instr (.indexed .load s) ∧ d' = d) ∨
    (∃ v, ctx.lookup name = .constant v ∧ Yields (load ctx pos v) d f d') ∨
    ((∀ s, ctx.lookup name ≠ .slot s) ∧ (∀ v, ctx.lookup name ≠ .constant v) ∧
      ctx.lookup name ≠ .unbound ∧
      ∃ i, Yields (intern ctx pos (.name name)) d i d' ∧
        f = Fragment.instr (.indexed .getDef i)) := by
  obtain ⟨r, d₁, hr, hk⟩ := yields_bind.1 h
  obtain ⟨hl, hne, rfl⟩ := yields_resolve.1 hr
  rw [hl]
  split at hk
  · next s =>
    obtain ⟨rfl, rfl⟩ := yields_pure.1 hk
    exact .inl ⟨s, rfl, rfl, rfl⟩
  · next v => exact .inr (.inl ⟨v, rfl, hk⟩)
  · next hs hv =>
    obtain ⟨i, _, hi, hp⟩ := yields_bind.1 hk
    obtain ⟨rfl, rfl⟩ := yields_pure.1 hp
    exact .inr (.inr ⟨hs, hv, hne, i, hi, rfl⟩)

/-- The callee that a resolved name stands for. -/
def Callee.ofResolution (name : Bytes) : Resolution → Callee
  | .self => .self
  | .global => .named (.name name)
  | .constant v => .named v
  | .builtin b => .builtin b
  | _ => .computed

theorem yields_callee_ident {place : Position} {name : Bytes} {c : Callee} :
    Yields (callee ctx (.ident place name)) d c d' ↔
      ctx.lookup name ≠ .unbound ∧ c = .ofResolution name (ctx.lookup name) ∧ d = d' := by
  simp only [callee, yields_bind, yields_resolve]
  constructor
  · rintro ⟨r, _, ⟨rfl, hne, rfl⟩, hp⟩
    refine ⟨hne, ?_⟩
    cases hr : ctx.lookup name <;> rw [hr] at hp <;> obtain ⟨rfl, rfl⟩ := yields_pure.1 hp <;>
      exact ⟨rfl, rfl⟩
  · rintro ⟨hne, rfl, rfl⟩
    refine ⟨_, d, ⟨rfl, hne, rfl⟩, ?_⟩
    cases ctx.lookup name <;> exact yields_pure.2 ⟨rfl, rfl⟩

theorem yields_callee {fn : Expr} {c : Callee} (h : Yields (callee ctx fn) d c d') :
    d' = d ∧ ((∃ place name, fn = .ident place name ∧ ctx.lookup name ≠ .unbound ∧
        c = .ofResolution name (ctx.lookup name)) ∨
      (∀ place name, fn ≠ .ident place name) ∧ c = .computed) := by
  cases fn with
  | ident place name =>
    obtain ⟨hne, hc, rfl⟩ := yields_callee_ident.1 h
    exact ⟨rfl, .inl ⟨place, name, rfl, hne, hc⟩⟩
  | _ =>
    obtain ⟨rfl, rfl⟩ := yields_pure.1 h
    exact ⟨rfl, .inr ⟨by simp, rfl⟩⟩

theorem Yields.callee_builtin {fn : Expr} {b : Builtin}
    (h : Yields (callee ctx fn) d (.builtin b) d') :
    ∃ place name, fn = .ident place name ∧ ctx.lookup name = .builtin b := by
  obtain ⟨-, ⟨place, name, rfl, -, hc⟩ | ⟨-, hc⟩⟩ := yields_callee h
  · refine ⟨place, name, rfl, ?_⟩
    cases hl : ctx.lookup name <;> rw [hl] at hc <;> cases hc
    rfl
  · cases hc

theorem yields_checkTarget {target : Nat} {u : Unit} :
    Yields (checkTarget ctx pos target) d u d' ↔ target ≤ Limit.target ∧ d = d' := by
  unfold checkTarget
  split
  · next h => exact ⟨fun hy => absurd hy not_yields_refuse, fun hle => by omega⟩
  · next h => simp [yields_pure, Nat.le_of_not_lt h]

theorem yields_checkArity {v : Value} {argc : Nat} {u : Unit}
    (h : Yields (checkArity ctx pos v argc) d u d') : d' = d := by
  unfold checkArity at h
  split at h
  · split at h
    · split at h
      · exact absurd h not_yields_refuse
      · exact (yields_pure.1 h).2.symm
    · exact (yields_pure.1 h).2.symm
  · exact (yields_pure.1 h).2.symm

theorem yields_checkFunction {params : List Bytes} {captures : Nat} {u : Unit} :
    Yields (checkFunction pos params captures) d u d' ↔
      captures ≤ Limit.captures ∧ params.length + captures ≤ Limit.slots ∧
        params.length ≤ Limit.arguments ∧ d = d' := by
  unfold checkFunction
  split
  · next h => exact ⟨fun hy => absurd hy not_yields_refuse, fun hle => by omega⟩
  · split
    · next h => exact ⟨fun hy => absurd hy not_yields_refuse, fun hle => by omega⟩
    · split
      · next h => exact ⟨fun hy => absurd hy not_yields_refuse, fun hle => by omega⟩
      · next h₁ h₂ h₃ =>
        simp [yields_pure, Nat.le_of_not_lt h₁, Nat.le_of_not_lt h₂, Nat.le_of_not_lt h₃]

theorem yields_isolated {α : Type} {slots : List Bytes} {m : Lower α} {r : α × Draft} :
    Yields (isolated slots m) d r d' ↔
      Yields m { slots, functions := d.functions } r.1 r.2 ∧
        d' = { d with functions := r.2.functions } := by
  unfold Yields isolated
  rcases hm : m { slots, functions := d.functions } with ⟨r', e⟩
  obtain ⟨a, d₁⟩ := r
  cases r' with
  | error e =>
    constructor
    · intro h
      cases h
    · rintro ⟨h, _⟩
      cases h
  | ok a' =>
    constructor
    · intro h
      cases h
      exact ⟨rfl, rfl⟩
    · rintro ⟨h, rfl⟩
      cases h
      rfl

theorem yields_complete {f : Function} {i : Nat} :
    Yields (complete f) d i d' ↔
      i = d.functions.length ∧ d' = { d with functions := d.functions ++ [f] } := by
  simp only [complete, yields_bind, yields_get, yields_set, yields_pure]
  constructor
  · rintro ⟨_, _, ⟨rfl, rfl⟩, _, _, rfl, rfl, rfl⟩
    exact ⟨rfl, rfl⟩
  · rintro ⟨rfl, rfl⟩
    exact ⟨d, d, ⟨rfl, rfl⟩, ⟨⟩, _, rfl, rfl, rfl⟩

end StackLisp.Lower
