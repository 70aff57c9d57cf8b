import Mathlib.Data.List.Forall2

/-! Lists, and steps that may fail: one after the other, or one for each element of a list. -/
namespace Except

variable {α β ε ε' : Type}

theorem ok_of_bind {x : Except ε α} {f : α → Except ε β} {b : β} (h : x >>= f = .ok b) :
    ∃ a, x = .ok a ∧ f a = .ok b := by
  cases x with
  | error e => cases h
  | ok a => exact ⟨a, rfl, h⟩

theorem error_of_bind {x : Except ε α} {f : α → β} {e : ε}
    (h : (x >>= fun a => pure (f a)) = .error e) : x = .error e := by
  cases x with
  | error e' =>
    cases h
    rfl
  | ok a => cases h

theorem mapError_eq_ok_iff {x : Except ε α} {g : ε → ε'} {a : α} :
    x.mapError g = .ok a ↔ x = .ok a := by
  cases x <;> simp [Except.mapError]

end Except

namespace List

variable {α β γ ε : Type} {xs ys : List α}

theorem IsPrefix.getElem?_eq_some (h : xs <+: ys) {k : Nat} {a : α} (hk : xs[k]? = some a) :
    ys[k]? = some a := by
  obtain ⟨rest, rfl⟩ := h
  rw [getElem?_append_left (getElem?_eq_some_iff.1 hk).1, hk]

theorem take_append_drop_take {i j : Nat} (h : i ≤ j) (xs : List α) :
    xs.take i ++ (xs.take j).drop i = xs.take j := by
  have hsplit := take_append_drop i (xs.take j)
  rwa [take_take, Nat.min_eq_left h] at hsplit

theorem forM_eq_ok_iff {check : α → Except ε Unit} :
    xs.forM check = .ok () ↔ ∀ x ∈ xs, check x = .ok () := by
  induction xs with
  | nil => simp [pure, Except.pure]
  | cons x xs ih =>
    simp only [forM_eq_forM, forM_cons, mem_cons, forall_eq_or_imp] at ih ⊢
    rw [← ih]
    cases check x with
    | error e => simp [bind, Except.bind]
    | ok u => simp [bind, Except.bind]

section
variable {step : α → Except ε β}

/-- A step for each element succeeds if all steps do, and the results correspond to the elements. -/
theorem mapM_eq_ok_iff {zs : List β} :
    xs.mapM step = .ok zs ↔ Forall₂ (fun x z => step x = .ok z) xs zs := by
  induction xs generalizing zs with
  | nil => cases zs <;> simp [pure, Except.pure]
  | cons x xs ih =>
    rw [mapM_cons]
    constructor
    · intro h
      obtain ⟨z, hz, hrest⟩ := Except.ok_of_bind h
      obtain ⟨more, hmore, hzs⟩ := Except.ok_of_bind hrest
      cases hzs
      exact .cons hz (ih.1 hmore)
    · intro h
      cases h with
      | cons hz hmore =>
        rw [hz, ih.2 hmore]
        rfl

theorem exists_mapM_eq_ok :
    (∃ zs, xs.mapM step = .ok zs) ↔ ∀ x ∈ xs, ∃ z, step x = .ok z := by
  induction xs with
  | nil => exact ⟨fun _ => forall_mem_nil _, fun _ => ⟨[], rfl⟩⟩
  | cons x xs ih =>
    rw [forall_mem_cons, ← ih]
    constructor
    · rintro ⟨zs, hzs⟩
      cases mapM_eq_ok_iff.1 hzs with
      | cons hz hmore => exact ⟨⟨_, hz⟩, _, mapM_eq_ok_iff.2 hmore⟩
    · rintro ⟨⟨z, hz⟩, zs, hzs⟩
      exact ⟨z :: zs, mapM_eq_ok_iff.2 (.cons hz (mapM_eq_ok_iff.1 hzs))⟩

theorem mapM_eq_ok_map {value : α → β} (h : ∀ x ∈ xs, step x = .ok (value x)) :
    xs.mapM step = .ok (xs.map value) :=
  mapM_eq_ok_iff.2 (forall₂_map_right_iff.2 (forall₂_same.2 h))

end

section
variable {f : α → Option β}

theorem length_of_mapM {zs : List β} (h : xs.mapM f = some zs) : zs.length = xs.length := by
  induction xs generalizing zs with
  | nil =>
    cases h
    rfl
  | cons x xs ih =>
    rw [mapM_cons] at h
    obtain ⟨z, -, hrest⟩ := Option.bind_eq_some_iff.1 h
    obtain ⟨more, hmore, hzs⟩ := Option.bind_eq_some_iff.1 hrest
    cases hzs
    rw [length_cons, length_cons, ih hmore]

theorem mapM_eq_none {x : α} (hx : x ∈ xs) (h : f x = none) : xs.mapM f = none := by
  induction xs with
  | nil => cases hx
  | cons y ys ih =>
    rw [mapM_cons]
    rcases mem_cons.1 hx with rfl | hx
    · rw [h]
      rfl
    · cases hy : f y with
      | none => rfl
      | some b =>
        rw [ih hx]
        rfl

/-- If each item is read under a condition, then all are read together under all conditions. -/
theorem mapM_map_ite {read : β → Option γ} {write : α → β} {value : α → γ} {good : α → Bool}
    (h : ∀ x ∈ xs, read (write x) = if good x then some (value x) else none) :
    (xs.map write).mapM read = if xs.all good then some (xs.map value) else none := by
  induction xs with
  | nil => rfl
  | cons x xs ih =>
    have hx := h x mem_cons_self
    have hxs := ih fun y hy => h y (mem_cons_of_mem _ hy)
    rw [map_cons, mapM_cons, hx, hxs, all_cons]
    cases good x with
    | false => rfl
    | true =>
      cases xs.all good with
      | false => rfl
      | true => rfl

end

end List
