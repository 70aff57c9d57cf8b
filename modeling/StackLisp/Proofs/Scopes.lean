import StackLisp.Proofs.Evaluation
import StackLisp.Proofs.Frames
import StackLisp.Proofs.Naming

/-! The names that evaluation sees are those that the compiler sees, with their values in their
slots. -/
namespace StackLisp

open Evaluation
open Lower (Yields Callee)

/-- The context without its locals. -/
def Context.outside (ctx : Context) : Context := ctx.seeing []

@[simp] theorem Context.outside_bind (ctx : Context) (slot : Nat) (names : List Bytes) :
    (ctx.bind slot names).outside = ctx.outside := by
  simp [outside, seeing, bind]

variable {V S : Type}

/-- The local names of the frame are those of the scope, and their slots of the stack hold their
values. -/
def Frame.Shows (frame : Frame) (scope : Scope V) (stack : List V) : Prop :=
  frame.locals.map (fun l => (l.1, stack[l.2]?)) = scope.map fun b => (b.1, some b.2)

namespace Frame.Shows

variable {frame : Frame} {scope : Scope V} {stack : List V}

theorem lookup (h : frame.Shows scope stack) (n : Bytes) :
    (∃ s v, frame.slot? n = some s ∧ scope.lookup n = some v ∧ stack[s]? = some v) ∨
    (frame.slot? n = none ∧ scope.lookup n = none) := by
  unfold Frame.Shows at h
  unfold Frame.slot?
  generalize frame.locals = locals at h
  induction locals generalizing scope with
  | nil =>
    cases scope with
    | nil => exact .inr ⟨rfl, rfl⟩
    | cons b scope => simp at h
  | cons l locals ih =>
    cases scope with
    | nil => simp at h
    | cons b scope =>
      obtain ⟨name, s⟩ := l
      obtain ⟨name', v⟩ := b
      simp only [List.map_cons, List.cons.injEq, Prod.mk.injEq] at h
      obtain ⟨⟨rfl, hs⟩, hrest⟩ := h
      by_cases hn : n = name
      · subst hn
        exact .inl ⟨s, v, List.lookup_cons_self, List.lookup_cons_self, hs⟩
      · have hne : (n == name) = false := by simpa using hn
        simpa [List.lookup_cons, hne] using ih hrest

/-- More values on the stack change no local. -/
theorem push (h : frame.Shows scope stack) (vs : List V) : frame.Shows scope (stack ++ vs) := by
  unfold Frame.Shows at h ⊢
  rw [← h]
  refine List.map_congr_left fun l hl => ?_
  have hmem : (l.1, stack[l.2]?) ∈ scope.map fun b => (b.1, some b.2) :=
    h ▸ List.mem_map.2 ⟨l, hl, rfl⟩
  obtain ⟨b, -, hb⟩ := List.mem_map.1 hmem
  have hsome : stack[l.2]? = some b.2 := (congrArg Prod.snd hb).symm
  rw [hsome, List.getElem?_append_left (List.getElem?_eq_some_iff.1 hsome).1, hsome]

private theorem shows_zip (stack : List V) {names : List Bytes} {vs : List V}
    (hlen : vs.length = names.length) :
    (names.zipIdx stack.length).map (fun l => (l.1, (stack ++ vs)[l.2]?)) =
      (names.zip vs).map fun b => (b.1, some b.2) := by
  induction names generalizing stack vs with
  | nil => simp
  | cons name names ih =>
    cases vs with
    | nil => simp at hlen
    | cons v vs =>
      have hlen' : vs.length = names.length := by simpa using hlen
      have hrest := ih (stack ++ [v]) hlen'
      simp only [List.length_append, List.length_cons, List.length_nil, List.append_assoc,
        List.cons_append, List.nil_append] at hrest
      simp [hrest]

/-- The values of new names come on the stack in their order. -/
theorem bind (h : frame.Shows scope stack) {names : List Bytes} {vs : List V}
    (hlen : vs.length = names.length) :
    (frame.bind stack.length names).Shows (scope.bind names vs) (stack ++ vs) := by
  have hold := h.push vs
  unfold Frame.Shows at hold ⊢
  rw [Frame.locals_bind, Scope.bind, List.map_append, List.map_append, List.map_reverse,
    List.map_reverse, shows_zip stack hlen, hold]

end Frame.Shows

variable {ctx : Context} {scope : Scope V} {stack : List V}

theorem isSome_lookup {α : Type} (n : Bytes) (xs : List (Bytes × α)) :
    (xs.lookup n).isSome = decide (n ∈ xs.map Prod.fst) := by
  induction xs with
  | nil => simp
  | cons x xs ih =>
    obtain ⟨a, b⟩ := x
    by_cases hn : n = a
    · simp [hn]
    · have hne : (n == a) = false := by simpa using hn
      simp [List.lookup_cons, hne, ih, hn]

/-- The names of the scope are in sight, and no other local. -/
theorem isSome_slot?_visible (outer : Context) (scope : Scope V) (n : Bytes) :
    ((visible outer scope).frame.slot? n).isSome = (scope.lookup n).isSome := by
  have hseen : (visible outer scope).frame.locals.map Prod.fst = scope.map Prod.fst := by
    simp [visible, Context.seeing, Function.comp_def]
  unfold Frame.slot?
  rw [isSome_lookup, isSome_lookup, hseen]

theorem slot?_visible (h : ctx.frame.Shows scope stack) (n : Bytes) :
    ((visible ctx.outside scope).frame.slot? n).isSome = (ctx.frame.slot? n).isSome := by
  rw [isSome_slot?_visible]
  rcases h.lookup n with ⟨s, v, hs, hv, -⟩ | ⟨hs, hv⟩ <;> rw [hs, hv] <;> rfl

theorem alike_visible : (visible ctx.outside scope).Alike ctx := ⟨rfl, rfl, rfl, rfl, rfl, rfl⟩

theorem agreeOn_visible (h : ctx.frame.Shows scope stack) (n : Bytes) :
    (visible ctx.outside scope).AgreeOn ctx n :=
  alike_visible.agreeOn (slot?_visible h n)

theorem fold?_visible (h : ctx.frame.Shows scope stack) (e : Expr) :
    e.fold? (visible ctx.outside scope) = e.fold? ctx :=
  Expr.fold?_congr fun n _ => agreeOn_visible h n

theorem lookup_visible (h : ctx.frame.Shows scope stack) (n : Bytes) :
    ((visible ctx.outside scope).lookup n).unplaced = (ctx.lookup n).unplaced :=
  alike_visible.lookup_unplaced (agreeOn_visible h n)

theorem Lower.Callee.ofResolution_unplaced (n : Bytes) (r : Resolution) :
    Callee.ofResolution n r.unplaced = .ofResolution n r := by
  cases r <;> rfl

/-- What is called depends only on what the name of the callee refers to. -/
theorem callee_of_alike {outer : Context} {fn : Expr} {c : Callee} {d d' : Draft}
    (halike : (visible outer scope).Alike ctx)
    (h : ∀ n, fn.Free n → (visible outer scope).AgreeOn ctx n)
    (hy : Yields (Lower.callee ctx fn) d c d') : callee outer scope fn = c := by
  obtain ⟨-, ⟨place, n, rfl, -, rfl⟩ | ⟨hne, rfl⟩⟩ := Lower.yields_callee hy
  · rw [callee, ← Callee.ofResolution_unplaced, halike.lookup_unplaced (h n .ident),
      Callee.ofResolution_unplaced]
  · cases fn <;> first | rfl | exact absurd rfl (hne _ _)

/-- Evaluation and compiler agree on what is called. -/
theorem callee_visible (h : ctx.frame.Shows scope stack) {fn : Expr} {c : Callee} {d d' : Draft}
    (hy : Yields (Lower.callee ctx fn) d c d') : callee ctx.outside scope fn = c :=
  callee_of_alike alike_visible (fun n _ => agreeOn_visible h n) hy

theorem isNot_eq_isNegation (outer : Context) (scope : Scope V) (fn : Expr) :
    isNot outer scope fn = Lower.isNegation (visible outer scope) fn 1 := by
  cases fn with
  | ident place n =>
    simp only [isNot, callee, Lower.isNegation]
    cases hb : (visible outer scope).resolve n <;> simp only [Context.lookup, hb]
    case unbound => cases (visible outer scope).bindsLate n <;> rfl
    case builtin b => simp [Callee.ofResolution]
    all_goals rfl
  | _ => rfl

/-- Evaluation and compiler agree on what a negation is. -/
theorem isNot_visible (h : ctx.frame.Shows scope stack) (fn : Expr) :
    isNot ctx.outside scope fn = Lower.isNegation ctx fn 1 := by
  rw [isNot_eq_isNegation, Lower.isNegation_congr fun n _ => agreeOn_visible h n]

end StackLisp
