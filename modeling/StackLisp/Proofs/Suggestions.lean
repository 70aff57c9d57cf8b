import Mathlib.Data.List.Nodup
import StackLisp.Proofs.EditDistance
import StackLisp.Proofs.LateBinding

/-! Which names are suggested for a misspelled one. The suggestions depend on what the candidates
are and not on the order in which they are gathered, so a name that stands for nothing is always
reported in the same words. -/
namespace StackLisp

attribute [ext] Suggestion

namespace Suggestion

/-- Nearer suggestions come first, equally near ones in the order of their bytes. -/
def Before (a b : Suggestion) : Prop :=
  a.distance < b.distance ∨ a.distance = b.distance ∧ a.value < b.value

/-- A name, with its distance from the target, that the target may be a misspelling of. -/
structure Near (target : Bytes) (s : Suggestion) : Prop where
  named : s.value ≠ []
  different : lowerCase s.value ≠ lowerCase target
  least : IsLeast {n | Edits n (lowerCase target) (lowerCase s.value)} s.distance
  close : s.distance ≤ threshold (Text.encode (lowerCase target)).length

theorem le_iff {a b : Suggestion} :
    le a b = true ↔ a.distance < b.distance ∨ a.distance = b.distance ∧ a.value ≤ b.value := by
  simp [le]

theorem le_trans (a b c : Suggestion) (hab : le a b = true) (hbc : le b c = true) :
    le a c = true := by
  rw [le_iff] at *
  rcases hab with hab | ⟨hab, hab'⟩ <;> rcases hbc with hbc | ⟨hbc, hbc'⟩
  · exact .inl (by omega)
  · exact .inl (by omega)
  · exact .inl (by omega)
  · exact .inr ⟨hab.trans hbc, List.le_trans hab' hbc'⟩

theorem le_total (a b : Suggestion) : (le a b || le b a) = true := by
  rw [Bool.or_eq_true, le_iff, le_iff]
  rcases Nat.lt_trichotomy a.distance b.distance with hlt | heq | hlt
  · exact .inl (.inl hlt)
  · rcases List.le_total a.value b.value with hle | hle
    · exact .inl (.inr ⟨heq, hle⟩)
    · exact .inr (.inr ⟨heq.symm, hle⟩)
  · exact .inr (.inl hlt)

theorem eq_of_le {a b : Suggestion} (hab : le a b = true) (hba : le b a = true) : a = b := by
  rw [le_iff] at hab hba
  rcases hab with hab | ⟨hdistance, hab⟩
  · omega
  · rcases hba with hba | ⟨-, hba⟩
    · omega
    · exact Suggestion.ext (List.le_antisymm hab hba) hdistance

theorem Before.le {a b : Suggestion} (h : a.Before b) : Suggestion.le a b = true :=
  le_iff.2 (h.imp_right fun hsame => ⟨hsame.1, List.le_of_lt hsame.2⟩)

theorem Before.ne {a b : Suggestion} (h : a.Before b) : a ≠ b := by
  rintro rfl
  rcases h with h | ⟨-, h⟩
  · exact Nat.lt_irrefl _ h
  · exact List.lt_irrefl _ h

theorem before_of_le {a b : Suggestion} (h : le a b = true) (hne : a ≠ b) : a.Before b := by
  rcases le_iff.1 h with hlt | ⟨hdistance, hle⟩
  · exact .inl hlt
  · have hvalue : a.value ≠ b.value := fun heq => hne (Suggestion.ext heq hdistance)
    exact .inr ⟨hdistance, Std.lt_of_le_of_ne hle hvalue⟩

/-- An order without repetitions is determined by its members. -/
theorem eq_of_before {xs ys : List Suggestion} (hxs : xs.Pairwise Before) (hys : ys.Pairwise Before)
    (h : ∀ s, s ∈ xs ↔ s ∈ ys) : xs = ys := by
  have hperm : xs.Perm ys :=
    (List.perm_ext_iff_of_nodup (hxs.imp Before.ne) (hys.imp Before.ne)).2 h
  exact hperm.eq_of_pairwise (fun a b _ _ hab hba => eq_of_le hab hba) (hxs.imp Before.le)
    (hys.imp Before.le)

/-- No name comes with two distances. -/
def Settled (xs : List Suggestion) : Prop := ∀ a ∈ xs, ∀ b ∈ xs, a.value = b.value → a = b

theorem Settled.tail {a : Suggestion} {xs : List Suggestion} (h : Settled (a :: xs)) : Settled xs :=
  fun x hx y hy => h x (List.mem_cons_of_mem a hx) y (List.mem_cons_of_mem a hy)

theorem mem_dropRepeated {xs : List Suggestion} (h : Settled xs) (s : Suggestion) :
    s ∈ dropRepeated xs ↔ s ∈ xs := by
  fun_induction dropRepeated xs with
  | case1 a b rest hvalue ih =>
    have hab : a = b := h a (by simp) b (by simp) hvalue
    rw [ih h.tail, hab]
    simp
  | case2 a b rest _ ih =>
    rw [List.mem_cons, ih h.tail]
    exact List.mem_cons.symm
  | case3 => rfl

/-- Once they are in order, equal suggestions are neighbours, so none is left twice. -/
theorem pairwise_dropRepeated {xs : List Suggestion} (h : Settled xs)
    (hsorted : xs.Pairwise fun a b => le a b = true) : (dropRepeated xs).Pairwise Before := by
  fun_induction dropRepeated xs with
  | case1 a b rest _ ih =>
    exact ih h.tail (List.pairwise_cons.1 hsorted).2
  | case2 a b rest hne ih =>
    obtain ⟨hfirst, hsorted⟩ := List.pairwise_cons.1 hsorted
    refine List.pairwise_cons.2 ⟨fun s hs => ?_, ih h.tail hsorted⟩
    have hmem := (mem_dropRepeated h.tail s).1 hs
    refine before_of_le (hfirst s hmem) ?_
    rintro rfl
    -- the suggestion would come again behind `b`, which lies between its two places
    have hback : le b a = true := by
      rcases List.mem_cons.1 hmem with rfl | hmem
      · exact absurd rfl hne
      · exact (List.pairwise_cons.1 hsorted).1 a hmem
    exact hne (congrArg value (eq_of_le (hfirst b List.mem_cons_self) hback))
  | case3 xs hshort =>
    rcases xs with _ | ⟨a, _ | ⟨b, rest⟩⟩
    · exact .nil
    · exact List.pairwise_singleton _ _
    · exact absurd rfl (hshort a b rest)

theorem consider_eq_some_iff {target c : Bytes} {s : Suggestion} :
    consider (lowerCase target) (threshold (Text.encode (lowerCase target)).length) c = some s ↔
      s.value = c ∧ Near target s := by
  simp only [consider, editDistance_eq]
  constructor
  · intro h
    split at h
    · cases h
    · next hnot =>
      obtain ⟨hnamed, hdifferent⟩ := not_or.1 hnot
      split at h
      · next hclose =>
        cases h
        exact ⟨rfl, hnamed, hdifferent, Edits.isLeast_distance _ _, hclose⟩
      · cases h
  · rintro ⟨rfl, hnear⟩
    have hdistance : Edits.distance (lowerCase target) (lowerCase s.value) = s.distance :=
      (Edits.isLeast_distance _ _).unique hnear.least
    rw [if_neg (not_or.2 ⟨hnear.named, hnear.different⟩), hdistance, if_pos hnear.close]

/-- The suggestions are the first of all near candidates in their order. -/
theorem similar_eq_take {target : Bytes} (htarget : target ≠ []) (candidates : List Bytes) :
    ∃ all : List Suggestion, all.Pairwise Before ∧
      (∀ s, s ∈ all ↔ s.value ∈ candidates ∧ Near target s) ∧
      similar target candidates = all.take most := by
  let near := candidates.filterMap
    (consider (lowerCase target) (threshold (Text.encode (lowerCase target)).length))
  have hnear (s : Suggestion) : s ∈ near.mergeSort le ↔ s.value ∈ candidates ∧ Near target s := by
    rw [List.mem_mergeSort, List.mem_filterMap]
    constructor
    · rintro ⟨c, hc, hs⟩
      obtain ⟨rfl, hnear⟩ := consider_eq_some_iff.1 hs
      exact ⟨hc, hnear⟩
    · rintro ⟨hc, hs⟩
      exact ⟨s.value, hc, consider_eq_some_iff.2 ⟨rfl, hs⟩⟩
  have hsettled : Settled (near.mergeSort le) := by
    intro a ha b hb hab
    have hdistance : a.distance = b.distance :=
      ((hnear a).1 ha).2.least.unique (hab ▸ ((hnear b).1 hb).2.least)
    exact Suggestion.ext hab hdistance
  have hsorted : (near.mergeSort le).Pairwise fun a b => le a b = true :=
    List.pairwise_mergeSort le_trans le_total near
  refine ⟨dropRepeated (near.mergeSort le), pairwise_dropRepeated hsettled hsorted, ?_, ?_⟩
  · intro s
    rw [mem_dropRepeated hsettled, hnear]
  · rw [similar, if_neg htarget]

theorem similar_congr {target : Bytes} {candidates others : List Bytes}
    (h : ∀ c, c ≠ [] → (c ∈ candidates ↔ c ∈ others)) :
    similar target candidates = similar target others := by
  by_cases htarget : target = []
  · rw [similar, if_pos htarget, similar, if_pos htarget]
  · obtain ⟨xs, hxs, hmem, heq⟩ := similar_eq_take htarget candidates
    obtain ⟨ys, hys, hmem', heq'⟩ := similar_eq_take htarget others
    have hsame : xs = ys := by
      refine eq_of_before hxs hys fun s => ?_
      rw [hmem, hmem']
      exact and_congr_left fun hs => h s.value hs.named
    rw [heq, heq', hsame]

end Suggestion

/-- If the refusal says that a name is unbound, the name stands for nothing in some context, and the
candidates are the names in sight there. -/
def LocatedRefusal.Sighted (options : CompileOptions) (r : LocatedRefusal) : Prop :=
  r.refusal.code = .unboundName → ∃ (ctx : Context) (name : Bytes), ctx.options = options ∧
    ctx.lookup name = .unbound ∧ r.refusal = .unbound name ctx.visibleNames

namespace Lower

variable {options : CompileOptions}

theorem lenient_sighted : Lenient (LocatedRefusal.Sighted options) := by
  intro r pos hr hcode
  rw [Refusal.isNaming_eq_true.2 (.inl hcode)] at hr
  cases hr

theorem blames_sighted {ctx : Context} (hctx : ctx.options = options) (e : Expr) :
    Blames (LocatedRefusal.Sighted options) ctx e := by
  rintro place n rfl hunbound hcode
  refine ⟨ctx, n, hctx, hunbound, ?_⟩
  unfold Context.blame at hcode ⊢
  by_cases hforward : ctx.isForward n = true
  · rw [if_pos hforward] at hcode
    cases hcode
  · exact if_neg hforward

theorem confined_sighted (e : Expr) {ctx : Context} (hctx : ctx.options = options) :
    Confined (LocatedRefusal.Sighted options) ctx e := by
  induction e using Expr.induction generalizing ctx with
  | literal pos v => exact confined_literal lenient_sighted v
  | ident pos n => exact confined_ident lenient_sighted (blames_sighted hctx _)
  | call pos fn args ihfn ihargs =>
    exact confined_call lenient_sighted (blames_sighted hctx fn) (ihfn hctx)
      fun e he => ihargs e he hctx
  | apply pos fn args ihfn ihargs =>
    exact confined_apply lenient_sighted (blames_sighted hctx fn) (ihfn hctx)
      fun e he => ihargs e he hctx
  | cond pos test yes no ihtest ihyes ihno =>
    exact confined_cond lenient_sighted (ihtest hctx) (ihyes hctx) fun e he => ihno e he hctx
  | letIn pos bindings body ihvalues ihbody =>
    exact confined_letIn lenient_sighted (fun b hb => ihvalues b hb hctx)
      fun slot e he => ihbody e he hctx
  | block pos body ih => exact confined_block fun e he => ih e he hctx
  | and pos es ih => exact confined_and lenient_sighted fun e he => ih e he hctx
  | or pos es ih => exact confined_or lenient_sighted fun e he => ih e he hctx
  | lambda pos name params body ih =>
    exact confined_lambda lenient_sighted fun captures e he => ih e he hctx
  | define pos name value => exact confined_define lenient_sighted name value
  | const pos name value => exact confined_const lenient_sighted name value

end Lower

namespace Compilation

open Lower (Refuses refuses_pure refuses_intern refuses_function lenient_sighted confined_sighted)

theorem refuses_formCode_sighted (ctx : Context) (e : Expr) :
    Refuses (LocatedRefusal.Sighted ctx.options) (formCode ctx e) := by
  unfold formCode
  split
  · refine Refuses.bind ?_ fun f => refuses_pure _
    refine (refuses_intern lenient_sighted _).bind fun i => ?_
    split
    · refine Refuses.bind (.map (refuses_function lenient_sighted fun e he => ?_) _)
        fun f => refuses_pure _
      exact confined_sighted e rfl
    · exact (confined_sighted _ rfl _ _ _).bind fun f => refuses_pure _
  · exact (refuses_const lenient_sighted _ _ _).bind fun p => refuses_pure _
  · exact (confined_sighted e rfl _ _ _).bind fun f => refuses_pure _

theorem sighted_of_compile {options : CompileOptions} {env : Environment} {forms : List Expr}
    {r : LocatedRefusal} (h : compile options env forms = .error r) : r.Sighted options := by
  unfold compile run at h
  split at h
  · next hd =>
    cases h
    exact lenient_sighted _ _ (isNaming_of_declarations hd)
  · obtain ⟨k, e, env', -, hform⟩ := form_of_formsFrom h
    unfold form at hform
    split at hform
    · next hcode =>
      cases hform
      exact refuses_formCode_sighted _ e hcode
    · cases hform

end Compilation

namespace Suggestion

open Text (lit)

/-- The suggestions are a function of the set of candidates: for a target that is not empty the
first three of the names near it. So whatever order the names in sight are gathered in, an unbound
name is reported in the same way. -/
theorem similar_least {target : Bytes} {candidates others : List Bytes}
    (h : ∀ c, c ≠ [] → (c ∈ candidates ↔ c ∈ others)) :
    similar target candidates = similar target others ∧
      (target = [] → similar target candidates = []) ∧
      (target ≠ [] → ∃ all : List Suggestion, all.Pairwise Before ∧
        (∀ s, s ∈ all ↔ s.value ∈ candidates ∧ Near target s) ∧
        similar target candidates = all.take 3) ∧
      ∀ options env forms r, Compilation.compile options env forms = .error r →
        r.refusal.code = .unboundName → ∃ (ctx : Context) (name : Bytes), ctx.options = options ∧
          ctx.lookup name = .unbound ∧ r.refusal = .unbound name ctx.visibleNames ∧
          ∀ gathered, (∀ c, c ≠ [] → (c ∈ gathered ↔ c ∈ ctx.visibleNames)) →
            LocatedRefusal.diagnostic options ⟨.unbound name gathered, r.pos⟩ =
              r.diagnostic options := by
  refine ⟨similar_congr h, fun hnone => ?_, fun hsome => similar_eq_take hsome candidates,
    fun options env forms r hrefused hcode => ?_⟩
  · rw [similar, if_pos hnone]
  · obtain ⟨ctx, name, hctx, hunbound, hr⟩ := Compilation.sighted_of_compile hrefused hcode
    refine ⟨ctx, name, hctx, hunbound, hr, fun gathered hgathered => ?_⟩
    obtain ⟨refusal, pos⟩ := r
    cases hr
    have hsame : Refusal.suggestions (.unbound name gathered) =
        Refusal.suggestions (.unbound name ctx.visibleNames) := similar_congr hgathered
    unfold LocatedRefusal.diagnostic
    dsimp only
    rw [hsame]
    rfl

/-- The same names in another order, one of them twice. -/
theorem similar_least_reordered :
    lit "lst" ≠ [] ∧
      (∀ c, c ≠ [] → (c ∈ [lit "list", lit "last", lit "list"] ↔ c ∈ [lit "last", lit "list"])) ∧
      similar (lit "lst") [lit "list", lit "last", lit "list"] =
        similar (lit "lst") [lit "last", lit "list"] ∧
      ∃ all : List Suggestion, all.Pairwise Before ∧
        (∀ s, s ∈ all ↔ s.value ∈ [lit "list", lit "last", lit "list"] ∧ Near (lit "lst") s) ∧
        similar (lit "lst") [lit "list", lit "last", lit "list"] = all.take 3 := by
  have hsome : lit "lst" ≠ [] := by decide
  have hnames : ∀ c, c ≠ [] →
      (c ∈ [lit "list", lit "last", lit "list"] ↔ c ∈ [lit "last", lit "list"]) := by
    intro c _
    simp only [List.mem_cons, List.not_mem_nil, or_false]
    exact ⟨fun h => h.elim .inr fun h => h.elim .inl .inr,
      fun h => h.elim (fun h => .inr (.inl h)) .inl⟩
  exact ⟨hsome, hnames, (similar_least hnames).1, (similar_least hnames).2.2.1 hsome⟩

/-- One letter is close enough to the empty name, for which nothing is suggested. -/
theorem similar_of_empty : Near [] ⟨lit "a", 1⟩ ∧ similar [] [lit "a"] = [] ∧
    ¬ ∃ all : List Suggestion, all.Pairwise Before ∧
      (∀ s, s ∈ all ↔ s.value ∈ [lit "a"] ∧ Near [] s) ∧ similar [] [lit "a"] = all.take 3 := by
  have hnear : Near [] ⟨lit "a", 1⟩ := by
    refine ⟨by decide, by decide +kernel, ?_, by decide +kernel⟩
    have hdistance : editDistance (lowerCase []) (lowerCase (lit "a")) = 1 := by decide +kernel
    rw [editDistance_eq] at hdistance
    exact hdistance ▸ Edits.isLeast_distance _ _
  have hnone : similar [] [lit "a"] = [] := if_pos rfl
  refine ⟨hnear, hnone, ?_⟩
  rintro ⟨all, -, hmem, htake⟩
  have hall : all ≠ [] := List.ne_nil_of_mem ((hmem ⟨lit "a", 1⟩).2 ⟨by decide, hnear⟩)
  rw [hnone] at htake
  cases all with
  | nil => exact hall rfl
  | cons s rest => cases htake

end Suggestion
end StackLisp
