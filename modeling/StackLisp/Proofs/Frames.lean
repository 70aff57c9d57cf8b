import StackLisp.Lowering

/-! Local names and their slots. -/
namespace StackLisp

/-- The first entry answers for its own key, and the others for all other keys. -/
theorem lookup_cons_ite {α : Type} (n key : Bytes) (a : α) (entries : List (Bytes × α)) :
    ((key, a) :: entries).lookup n = if n = key then some a else entries.lookup n := by
  rw [List.lookup_cons]
  by_cases h : n = key
  · simp [h]
  · rw [beq_eq_false_iff_ne.2 h, if_neg h]

namespace Frame

/-- All local names have slots below `n`. -/
def Below (f : Frame) (n : Nat) : Prop := ∀ c ∈ f.locals, c.2 < n

@[simp] theorem name_bind (f : Frame) (slot : Nat) (names : List Bytes) :
    (f.bind slot names).name = f.name := by
  induction names generalizing f slot with
  | nil => rfl
  | cons name rest ih => rw [bind, ih]

@[simp] theorem params_bind (f : Frame) (slot : Nat) (names : List Bytes) :
    (f.bind slot names).params = f.params := by
  induction names generalizing f slot with
  | nil => rfl
  | cons name rest ih => rw [bind, ih]

/-- Later names come first, so that they hide equal ones before them. -/
theorem locals_bind (f : Frame) (slot : Nat) (names : List Bytes) :
    (f.bind slot names).locals = (names.zipIdx slot).reverse ++ f.locals := by
  induction names generalizing f slot with
  | nil => rfl
  | cons name rest ih =>
    rw [bind, ih]
    simp

theorem isSome_slot?_bind {f : Frame} {slot : Nat} {names : List Bytes} {n : Bytes} :
    ((f.bind slot names).slot? n).isSome ↔ n ∈ names ∨ (f.slot? n).isSome := by
  induction names generalizing f slot with
  | nil => simp [bind]
  | cons name rest ih =>
    rw [bind, ih]
    unfold slot?
    rw [lookup_cons_ite]
    by_cases h : n = name
    · simp [h]
    · simp [h]

theorem isSome_slot?_ofFunction {name : Bytes} {params captures : List Bytes} {n : Bytes} :
    ((ofFunction name params captures).slot? n).isSome ↔ n ∈ params ∨ n ∈ captures := by
  unfold ofFunction
  rw [isSome_slot?_bind, List.mem_append]
  simp [slot?]

theorem Below.mono {f : Frame} {m n : Nat} (h : f.Below m) (hmn : m ≤ n) : f.Below n :=
  fun c hc => Nat.lt_of_lt_of_le (h c hc) hmn

theorem Below.bind {f : Frame} {n slot : Nat} {names : List Bytes} (h : f.Below n)
    (hn : names ≠ [] → slot + names.length ≤ n) : (f.bind slot names).Below n := by
  intro c hc
  rw [locals_bind, List.mem_append, List.mem_reverse] at hc
  rcases hc with hc | hc
  · have hne : names ≠ [] := by
      rintro rfl
      simp at hc
    have hlt := List.snd_lt_add_of_mem_zipIdx hc
    have := hn hne
    omega
  · exact h c hc

theorem below_ofFunction (name : Bytes) (params captures : List Bytes) :
    (ofFunction name params captures).Below (params.length + captures.length) := by
  refine Below.bind (fun c hc => by simp at hc) fun _ => ?_
  simp

theorem Below.slot {f : Frame} {n s : Nat} {name : Bytes} (h : f.Below n)
    (hs : f.slot? name = some s) : s < n := by
  obtain ⟨l₁, l₂, hl, -⟩ := List.lookup_eq_some_iff.1 hs
  exact h (name, s) (by simp [hl])

end Frame

namespace Context

/-- A name is a local exactly if the frame has a slot for it. -/
theorem lookup_eq_slot {ctx : Context} {name : Bytes} {s : Nat} :
    ctx.lookup name = .slot s ↔ ctx.frame.slot? name = some s := by
  unfold lookup resolve
  cases hs : ctx.frame.slot? name with
  | some t => simp
  | none =>
    simp only [reduceCtorEq, iff_false]
    split
    · split <;> simp
    · next r hr =>
      split
      · simp
      · split
        · simp
        · simp
        · split
          · simp
          · split
            · simp
            · next h => simp_all

/-- A name is that of the function itself exactly if the function has this name and no local hides
it. -/
theorem lookup_eq_self {ctx : Context} {name : Bytes} :
    ctx.lookup name = .self ↔
      ctx.frame.slot? name = none ∧ ctx.frame.name ≠ [] ∧ ctx.frame.name = name := by
  unfold lookup resolve
  cases hs : ctx.frame.slot? name with
  | some t => simp
  | none =>
    by_cases hown : ctx.frame.name ≠ [] ∧ ctx.frame.name = name
    · rw [if_pos hown]
      exact ⟨fun _ => ⟨rfl, hown⟩, fun _ => rfl⟩
    · simp only [if_neg hown, true_and]
      refine ⟨fun h => ?_, fun h => absurd h hown⟩
      cases hfind : ctx.env.find? name with
      | some s => cases s <;> simp [hfind] at h
      | none =>
        by_cases hglobal : name ∈ ctx.options.globals
        · simp [hfind, hglobal] at h
        · cases hb : ctx.options.builtins.find? name with
          | some b => simp [hfind, hglobal, hb] at h
          | none =>
            simp only [hfind, if_neg hglobal, hb] at h
            split at h <;> cases h

end Context

theorem Lower.mem_capturedBy {ctx : Context} {name : Bytes} {free : List Bytes}
    {c : Bytes × Nat} :
    c ∈ capturedBy ctx name free ↔
      c.1 ∈ free ∧ c.1 ≠ name ∧ ctx.frame.slot? c.1 = some c.2 := by
  obtain ⟨n, s⟩ := c
  simp only [capturedBy, List.mem_filterMap]
  constructor
  · rintro ⟨m, hm, hc⟩
    split at hc
    · cases hc
    · next hne =>
      obtain ⟨t, ht, h⟩ := Option.map_eq_some_iff.1 hc
      cases h
      exact ⟨hm, hne, ht⟩
  · rintro ⟨hn, hne, hs⟩
    exact ⟨n, hn, by rw [if_neg hne, hs]; rfl⟩

/-- Nothing is captured outside all functions. -/
theorem Lower.capturedBy_eq_nil {ctx : Context} (h : ctx.frame = {}) (name : Bytes)
    (free : List Bytes) : capturedBy ctx name free = [] := by
  refine List.eq_nil_iff_forall_not_mem.2 fun c hc => ?_
  have hslot := (mem_capturedBy.1 hc).2.2
  rw [h] at hslot
  cases hslot

end StackLisp
