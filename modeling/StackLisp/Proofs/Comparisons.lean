import Mathlib.Data.List.Basic
import StackLisp.Builtin.Folding

/-! Comparisons of values that are known. An order needs values that can be compared at every place.
Equality and difference look at one pair after the other and stop at the first that decides, so that
types that do not match are seen only up to there. -/
namespace StackLisp

theorem Text.compare_eq_lt {s t : Bytes} : compare s t = .lt ↔ s < t := by
  induction s generalizing t with
  | nil => cases t <;> simp [List.compare_nil_cons]
  | cons a s ih =>
    cases t with
    | nil => simp [List.compare_cons_nil]
    | cons b t =>
      rw [List.compare_cons_cons, List.cons_lt_cons_iff, Ordering.then_eq_lt, ih,
        Std.compare_eq_lt, Std.LawfulEqOrd.compare_eq_iff_eq]

namespace Value

/-- Two integers, two strings, two characters or two names. -/
def Comparable : Value → Value → Prop
  | int _, int _ | string _, string _ | char _, char _ | name _, name _ => True
  | _, _ => False

/-- Numbers go by size, texts by the first bytes that differ. -/
def Below : Value → Value → Prop
  | int a, int b => a < b
  | string s, string t => s < t
  | char c, char d => c < d
  | name m, name n => m < n
  | _, _ => False

def SameType (a b : Value) : Prop := a.typeName = b.typeName

instance (a b : Value) : Decidable (SameType a b) := inferInstanceAs (Decidable (_ = _))

def IsFloat (v : Value) : Prop := ∃ x, v = float x

variable {a b : Value}

/-- Values that are not floats are compared by their contents, if they can be compared. -/
theorem comparable_cases (ha : ¬ a.IsFloat) (hb : ¬ b.IsFloat) :
    (Comparable a b ∧
      ((∃ i j, a = int i ∧ b = int j ∧ compare? a b = some (compare i.toInt j.toInt)) ∨
        (∃ s t, a = string s ∧ b = string t ∧ compare? a b = some (compare s t)) ∨
        (∃ c d, a = char c ∧ b = char d ∧ compare? a b = some (compare c.toInt d.toInt)) ∨
        ∃ m n, a = name m ∧ b = name n ∧ compare? a b = some (compare m n))) ∨
    (¬ Comparable a b ∧ compare? a b = none) := by
  cases a <;> cases b <;> first
    | exact absurd ⟨_, rfl⟩ ha
    | exact absurd ⟨_, rfl⟩ hb
    | exact .inr ⟨id, rfl⟩
    | refine .inl ⟨trivial, ?_⟩
  · exact .inl ⟨_, _, rfl, rfl, rfl⟩
  · exact .inr (.inl ⟨_, _, rfl, rfl, rfl⟩)
  · exact .inr (.inr (.inl ⟨_, _, rfl, rfl, rfl⟩))
  · exact .inr (.inr (.inr ⟨_, _, rfl, rfl, rfl⟩))

/-- What an ordering of two values says about them. -/
structure Orders (c : Ordering) (a b : Value) : Prop where
  lt : c = .lt ↔ Below a b
  gt : c = .gt ↔ Below b a
  eq : c = .eq ↔ a = b

theorem orders_texts {s t : Bytes} {f : Bytes → Value} (hlt : ∀ s t, Below (f s) (f t) ↔ s < t)
    (heq : ∀ s t, f s = f t ↔ s = t) : Orders (compare s t) (f s) (f t) where
  lt := by rw [hlt, Text.compare_eq_lt]
  gt := by rw [hlt, Std.OrientedCmp.gt_iff_lt, Text.compare_eq_lt]
  eq := by rw [heq, Std.LawfulEqOrd.compare_eq_iff_eq]

theorem orders_numbers {x y : Int} (hlt : Below a b ↔ x < y) (hgt : Below b a ↔ y < x)
    (heq : a = b ↔ x = y) : Orders (compare x y) a b where
  lt := by rw [hlt, Std.compare_eq_lt]
  gt := by rw [hgt, Std.compare_eq_gt]
  eq := by rw [heq, Std.LawfulEqOrd.compare_eq_iff_eq]

theorem orders_of_compare? {c : Ordering} (ha : ¬ a.IsFloat) (hb : ¬ b.IsFloat)
    (h : compare? a b = some c) : Orders c a b := by
  rcases comparable_cases ha hb with ⟨-, hcases⟩ | ⟨-, hnone⟩
  · rcases hcases with ⟨i, j, rfl, rfl, hc⟩ | ⟨s, t, rfl, rfl, hc⟩ | ⟨x, y, rfl, rfl, hc⟩ |
      ⟨m, n, rfl, rfl, hc⟩ <;> cases hc.symm.trans h
    · exact orders_numbers Int64.lt_iff_toInt_lt Int64.lt_iff_toInt_lt
        ((int.injEq i j).to_iff.trans Int64.toInt_inj.symm)
    · exact orders_texts (fun _ _ => .rfl) fun s t => (string.injEq s t).to_iff
    · exact orders_numbers Int32.lt_iff_toInt_lt Int32.lt_iff_toInt_lt
        ((char.injEq x y).to_iff.trans Int32.toInt_inj.symm)
    · exact orders_texts (fun _ _ => .rfl) fun s t => (name.injEq s t).to_iff
  · cases hnone.symm.trans h

theorem isSome_compare? (ha : ¬ a.IsFloat) (hb : ¬ b.IsFloat) :
    (compare? a b).isSome = true ↔ Comparable a b := by
  rcases comparable_cases ha hb with ⟨h, hcases⟩ | ⟨h, hnone⟩
  · refine iff_of_true ?_ h
    rcases hcases with ⟨_, _, -, -, hc⟩ | ⟨_, _, -, -, hc⟩ | ⟨_, _, -, -, hc⟩ | ⟨_, _, -, -, hc⟩ <;>
      rw [hc] <;> rfl
  · rw [hnone]
    exact iff_of_false Bool.false_ne_true h

theorem sameType_of_comparable (h : Comparable a b) : SameType a b := by
  unfold Comparable at h
  split at h <;> first
    | rfl
    | cases h

theorem not_comparable_numbers (ha : ¬ a.IsFloat) (hb : ¬ b.IsFloat) (h : ¬ Comparable a b) :
    (a.isNumber && b.isNumber) = false := by
  cases a <;> cases b <;> first
    | exact absurd ⟨_, rfl⟩ ha
    | exact absurd ⟨_, rfl⟩ hb
    | exact absurd trivial h
    | rfl

/-- Values that are not floats are equal to programs if they are the same; those of different types
are not compared. -/
theorem equals?_eq (ha : ¬ a.IsFloat) (hb : ¬ b.IsFloat) :
    equals? a b = if SameType a b then some (decide (a = b)) else none := by
  have hsome := isSome_compare? ha hb
  unfold equals?
  cases hc : compare? a b with
  | some c =>
    rw [hc] at hsome
    have heq : (c == .eq) = decide (a = b) := by
      rw [Bool.eq_iff_iff, beq_iff_eq, decide_eq_true_iff]
      exact (orders_of_compare? ha hb hc).eq
    rw [if_pos (sameType_of_comparable (hsome.1 rfl))]
    exact congrArg some heq
  | none =>
    rw [hc] at hsome
    have hnumbers := not_comparable_numbers ha hb fun h => Bool.false_ne_true (hsome.2 h)
    dsimp only
    rw [hnumbers, if_neg Bool.false_ne_true]
    rfl

theorem equals?_self (ha : ¬ a.IsFloat) : equals? a a = some true := by
  rw [equals?_eq ha ha, if_pos (show SameType a a from rfl), decide_eq_true rfl]

theorem equals?_of_ne (ha : ¬ a.IsFloat) (hb : ¬ b.IsFloat) (hsame : SameType a b) (h : a ≠ b) :
    equals? a b = some false := by
  rw [equals?_eq ha hb, if_pos hsame, decide_eq_false h]

theorem equals?_of_not_sameType (ha : ¬ a.IsFloat) (hb : ¬ b.IsFloat) (h : ¬ SameType a b) :
    equals? a b = none := by
  rw [equals?_eq ha hb, if_neg h]

end Value

namespace Folding

open Value

/-- Each value with the next one. -/
def neighbours (vs : List Value) : List (Value × Value) := vs.zip vs.tail

/-- Each value with every later one. -/
def pairs : List Value → List (Value × Value)
  | [] => []
  | v :: vs => vs.map (v, ·) ++ pairs vs

theorem neighbours_cons (a b : Value) (rest : List Value) :
    neighbours (a :: b :: rest) = (a, b) :: neighbours (b :: rest) := rfl

variable {vs : List Value}

/-- Neighbours are looked at until two differ, which have to be of one type. -/
theorem allEqual_eq (h : ∀ v ∈ vs, ¬ v.IsFloat) :
    allEqual vs = ((neighbours vs).find? fun q => q.1 ≠ q.2).elim (some (.bool true)) fun q =>
      if SameType q.1 q.2 then some (.bool false) else none := by
  induction vs with
  | nil => rfl
  | cons a rest ih =>
    cases rest with
    | nil => rfl
    | cons b rest =>
      obtain ⟨ha, hrest⟩ := List.forall_mem_cons.1 h
      obtain ⟨hb, -⟩ := List.forall_mem_cons.1 hrest
      have hstep : allEqual (a :: b :: rest) = (a.equals? b).bind fun same =>
          if same = true then allEqual (b :: rest) else some (.bool false) := rfl
      rw [hstep, neighbours_cons]
      by_cases hab : a = b
      · subst hab
        rw [equals?_self ha, List.find?_cons_of_neg (by simp)]
        exact ih hrest
      · rw [List.find?_cons_of_pos (by simp [hab]), Option.elim_some]
        by_cases hsame : SameType a b
        · rw [equals?_of_ne ha hb hsame hab, if_pos hsame]
          rfl
        · rw [equals?_of_not_sameType ha hb hsame, if_neg hsame]
          rfl

/-- Two values at which the search for equal ones stops. -/
def Settles (q : Value × Value) : Prop := q.1 = q.2 ∨ ¬ SameType q.1 q.2

instance (q : Value × Value) : Decidable (Settles q) := inferInstanceAs (Decidable (_ ∨ _))

theorem differsFrom_eq {a : Value} (ha : ¬ a.IsFloat) (h : ∀ v ∈ vs, ¬ v.IsFloat) :
    differsFrom a vs = ((vs.map (a, ·)).find? fun q => Settles q).elim (some true) fun q =>
      if SameType q.1 q.2 then some false else none := by
  induction vs with
  | nil => rfl
  | cons b rest ih =>
    obtain ⟨hb, hrest⟩ := List.forall_mem_cons.1 h
    rw [differsFrom, List.map_cons]
    by_cases hsame : SameType a b
    · by_cases hab : a = b
      · subst hab
        rw [equals?_self ha, List.find?_cons_of_pos (by simp [Settles]),
          Option.elim_some, if_pos hsame]
        rfl
      · rw [equals?_of_ne ha hb hsame hab,
          List.find?_cons_of_neg (by simp [Settles, hab, hsame])]
        exact ih hrest
    · rw [equals?_of_not_sameType ha hb hsame,
        List.find?_cons_of_pos (by simp [Settles, hsame]), Option.elim_some, if_neg hsame]
      rfl

/-- Pairs are looked at until two are equal or of different types. -/
theorem allDifferent_eq (h : ∀ v ∈ vs, ¬ v.IsFloat) :
    allDifferent vs = ((pairs vs).find? fun q => Settles q).elim (some (.bool true)) fun q =>
      if SameType q.1 q.2 then some (.bool false) else none := by
  induction vs with
  | nil => rfl
  | cons a rest ih =>
    obtain ⟨ha, hrest⟩ := List.forall_mem_cons.1 h
    rw [allDifferent, pairs, List.find?_append, differsFrom_eq ha hrest]
    cases hfind : (rest.map (a, ·)).find? fun q => Settles q with
    | none => exact ih hrest
    | some q =>
      rw [Option.some_or, Option.elim_some, Option.elim_some]
      split <;> rfl

/-- An order needs values that can be compared everywhere, and is tested everywhere. -/
theorem ordered_eq_some {test : Ordering → Bool} {r : Bool} (h : ∀ v ∈ vs, ¬ v.IsFloat) :
    ordered test vs = some r ↔ (∀ q ∈ neighbours vs, Comparable q.1 q.2) ∧
      (r = true ↔ ∀ q ∈ neighbours vs, ∀ c, compare? q.1 q.2 = some c → test c = true) := by
  have hnone (r : Bool) : some true = some r ↔ (∀ q ∈ neighbours [], Comparable q.1 q.2) ∧
      (r = true ↔ ∀ q ∈ neighbours [], ∀ c, compare? q.1 q.2 = some c → test c = true) := by
    cases r <;> simp [neighbours]
  induction vs generalizing r with
  | nil => exact hnone r
  | cons a rest ih =>
    rcases rest with _ | ⟨b, rest⟩
    · exact hnone r
    obtain ⟨ha, hrest⟩ := List.forall_mem_cons.1 h
    obtain ⟨hb, -⟩ := List.forall_mem_cons.1 hrest
    have hstep : ordered test (a :: b :: rest) = (a.compare? b).bind fun c =>
        (ordered test (b :: rest)).bind fun others => some (test c && others) := rfl
    rw [hstep]
    have hsome := isSome_compare? ha hb
    rw [neighbours_cons, List.forall_mem_cons, List.forall_mem_cons]
    cases hc : compare? a b with
    | none =>
      rw [hc] at hsome
      refine iff_of_false (fun h => by cases h) fun h => ?_
      exact absurd (hsome.2 h.1.1) Bool.false_ne_true
    | some c =>
      rw [hc] at hsome
      have htest : (∀ c', some c = some c' → test c' = true) ↔ test c = true :=
        ⟨fun h => h c rfl, fun h c' hc' => Option.some.inj hc' ▸ h⟩
      rw [and_iff_right (hsome.1 rfl), htest, Option.bind_some]
      constructor
      · intro hr
        obtain ⟨others, hothers, hr⟩ := Option.bind_eq_some_iff.1 hr
        obtain ⟨hcomparable, hall⟩ := (ih hrest).1 hothers
        cases hr
        exact ⟨hcomparable, by rw [Bool.and_eq_true, hall]⟩
      · rintro ⟨hcomparable, hr⟩
        by_cases hall : ∀ q ∈ neighbours (b :: rest), ∀ c, compare? q.1 q.2 = some c → test c = true
        · have hothers := (ih hrest).2 ⟨hcomparable, iff_of_true rfl hall⟩
          refine Option.bind_eq_some_iff.2 ⟨true, hothers, congrArg some ?_⟩
          rw [Bool.and_true, Bool.eq_iff_iff, hr, and_iff_left hall]
        · have hothers := (ih hrest).2 ⟨hcomparable, iff_of_false Bool.false_ne_true hall⟩
          refine Option.bind_eq_some_iff.2 ⟨false, hothers, congrArg some ?_⟩
          rw [Bool.and_false, Bool.eq_iff_iff, hr]
          exact iff_of_false Bool.false_ne_true fun h => hall h.2

end Folding

namespace Primitive

open Folding Value

/-- The relation that an order holds between neighbours. -/
def Relates : Primitive → Value → Value → Prop
  | .lt, a, b => Below a b
  | .gt, a, b => Below b a
  | .le, a, b => Below a b ∨ a = b
  | .ge, a, b => Below b a ∨ a = b
  | _, _, _ => False

def orders : List Primitive := [.lt, .gt, .le, .ge]

/-- An order goes by a test of orderings, which is the relation it stands for. -/
theorem fold?_order {p : Primitive} (hp : p ∈ orders) :
    ∃ test : Ordering → Bool, (∀ args, p.fold? args = chain test args) ∧
      ∀ a b c, Orders c a b → (test c = true ↔ p.Relates a b) := by
  unfold orders at hp
  simp only [List.mem_cons, List.not_mem_nil, or_false] at hp
  rcases hp with rfl | rfl | rfl | rfl
  · exact ⟨_, fun _ => rfl, fun a b c h => beq_iff_eq.trans h.lt⟩
  · exact ⟨_, fun _ => rfl, fun a b c h => beq_iff_eq.trans h.gt⟩
  · refine ⟨_, fun _ => rfl, fun a b c h => ?_⟩
    rw [Relates, ← h.lt, ← h.eq]
    cases c <;> decide
  · refine ⟨_, fun _ => rfl, fun a b c h => ?_⟩
    rw [Relates, ← h.gt, ← h.eq]
    cases c <;> decide

variable {args : List Value}

theorem fold?_order_eq_some {p : Primitive} (hp : p ∈ orders) (h : ∀ v ∈ args, ¬ v.IsFloat)
    {v : Value} :
    p.fold? args = some v ↔ (∀ q ∈ neighbours args, Comparable q.1 q.2) ∧
      ∃ r, v = .bool r ∧ (r = true ↔ ∀ q ∈ neighbours args, p.Relates q.1 q.2) := by
  obtain ⟨test, hfold, htest⟩ := fold?_order hp
  have hrelates (hcomparable : ∀ q ∈ neighbours args, Comparable q.1 q.2) :
      (∀ q ∈ neighbours args, ∀ c, compare? q.1 q.2 = some c → test c = true) ↔
        ∀ q ∈ neighbours args, p.Relates q.1 q.2 := by
    refine forall₂_congr fun q hq => ?_
    have h₁ := h q.1 (List.of_mem_zip hq).1
    have h₂ := h q.2 (List.mem_of_mem_tail (List.of_mem_zip hq).2)
    obtain ⟨c, hc⟩ := Option.isSome_iff_exists.1 ((isSome_compare? h₁ h₂).2 (hcomparable q hq))
    have hq := htest q.1 q.2 c (orders_of_compare? h₁ h₂ hc)
    exact ⟨fun hall => hq.1 (hall c hc), fun hr c' hc' => by
      cases hc.symm.trans hc'
      exact hq.2 hr⟩
  rw [hfold, chain, Option.map_eq_some_iff]
  constructor
  · rintro ⟨r, hr, rfl⟩
    obtain ⟨hcomparable, hall⟩ := (ordered_eq_some h).1 hr
    exact ⟨hcomparable, r, rfl, hall.trans (hrelates hcomparable)⟩
  · rintro ⟨hcomparable, r, rfl, hall⟩
    exact ⟨r, (ordered_eq_some h).2 ⟨hcomparable, hall.trans (hrelates hcomparable).symm⟩, rfl⟩

/-- A search through pairs that ends with true, or with false at a pair of one type. -/
theorem search_eq_some {ps : List (Value × Value)} {stops : Value × Value → Bool} {v : Value} :
    (ps.find? stops).elim (some (.bool true)) (fun q =>
        if SameType q.1 q.2 then some (.bool false) else none) = some v ↔
      (∀ q, ps.find? stops = some q → SameType q.1 q.2) ∧
        ∃ r, v = .bool r ∧ (r = true ↔ ∀ q ∈ ps, stops q = false) := by
  cases hfind : ps.find? stops with
  | none =>
    have hall : ∀ q ∈ ps, stops q = false := by simpa using hfind
    rw [Option.elim_none, Option.some_inj]
    constructor
    · rintro rfl
      exact ⟨fun q hq => (by cases hq), true, rfl, iff_of_true rfl hall⟩
    · rintro ⟨-, r, rfl, hr⟩
      rw [hr.2 hall]
  | some q =>
    have hnot : ¬ ∀ q ∈ ps, stops q = false := by
      intro hall
      have hq := List.find?_some hfind
      rw [hall q (List.mem_of_find?_eq_some hfind)] at hq
      cases hq
    rw [Option.elim_some]
    constructor
    · intro h
      split at h
      · next hsame =>
        cases h
        exact ⟨fun q' hq' => Option.some.inj hq' ▸ hsame, false, rfl,
          iff_of_false Bool.false_ne_true hnot⟩
      · cases h
    · rintro ⟨hsame, r, rfl, hr⟩
      rw [if_pos (hsame q rfl)]
      cases r with
      | false => rfl
      | true => exact absurd (hr.1 rfl) hnot

theorem fold?_eq_eq_some (h : ∀ v ∈ args, ¬ v.IsFloat) {v : Value} :
    Primitive.eq.fold? args = some v ↔
      (∀ q, (neighbours args).find? (fun q => q.1 ≠ q.2) = some q → SameType q.1 q.2) ∧
        ∃ r, v = .bool r ∧ (r = true ↔ ∀ q ∈ neighbours args, q.1 = q.2) := by
  rw [fold?, allEqual_eq h, search_eq_some]
  simp only [decide_eq_false_iff_not, ne_eq, not_not]

theorem fold?_notEq_eq_some (h : ∀ v ∈ args, ¬ v.IsFloat) {v : Value} :
    Primitive.notEq.fold? args = some v ↔
      (∀ q, (pairs args).find? (fun q => Settles q) = some q → SameType q.1 q.2) ∧
        ∃ r, v = .bool r ∧ (r = true ↔ ∀ q ∈ pairs args, q.1 ≠ q.2) := by
  rw [fold?, allDifferent_eq h, search_eq_some]
  refine and_congr_right fun hfirst => exists_congr fun r => and_congr_right fun _ => ?_
  have hall : (∀ q ∈ pairs args, decide (Settles q) = false) ↔ ∀ q ∈ pairs args, q.1 ≠ q.2 := by
    constructor
    · exact fun hnone q hq heq => of_decide_eq_false (hnone q hq) (.inl heq)
    · intro hdiffer
      -- A first pair that stops the search is of one type, hence equal.
      cases hfind : (pairs args).find? fun q => Settles q with
      | none => simpa using hfind
      | some q =>
        have hstops := List.find?_some hfind
        rw [decide_eq_true_iff] at hstops
        rcases hstops with heq | hother
        · exact absurd heq (hdiffer q (List.mem_of_find?_eq_some hfind))
        · exact absurd (hfirst q hfind) hother
  rw [hall]

/-- Comparisons of values that are not floats. An order has a truth value if all neighbours can be
compared, and then it is true if the relation holds between all neighbours. Equality has one if the
first neighbours that differ, if any, are of one type, and difference if the first pair that is
equal or of different types, if any, is of one type; what stands behind is not looked at. Then
equality is true if all neighbours are equal, and difference if no pair is. -/
theorem fold?_comparison (args : List Value) (h : ∀ v ∈ args, ¬ v.IsFloat) :
    (∀ p ∈ orders, ∀ v, p.fold? args = some v ↔
      (∀ q ∈ neighbours args, Comparable q.1 q.2) ∧
        ∃ r, v = .bool r ∧ (r = true ↔ ∀ q ∈ neighbours args, p.Relates q.1 q.2)) ∧
    (∀ v, Primitive.eq.fold? args = some v ↔
      (∀ q, (neighbours args).find? (fun q => q.1 ≠ q.2) = some q → SameType q.1 q.2) ∧
        ∃ r, v = .bool r ∧ (r = true ↔ ∀ q ∈ neighbours args, q.1 = q.2)) ∧
    (∀ v, Primitive.notEq.fold? args = some v ↔
      (∀ q, (pairs args).find? (fun q => Settles q) = some q → SameType q.1 q.2) ∧
        ∃ r, v = .bool r ∧ (r = true ↔ ∀ q ∈ pairs args, q.1 ≠ q.2)) :=
  ⟨fun _ hp _ => fold?_order_eq_some hp h, fun _ => fold?_eq_eq_some h,
    fun _ => fold?_notEq_eq_some h⟩

/-- Two integers before a string. -/
def mismatched : List Value := [.int 1, .int 2, .string (Text.lit "a")]

/-- The integers decide that not all are equal, though the string cannot be compared with them. -/
theorem fold?_eq_mismatched :
    ¬ (∀ q ∈ neighbours mismatched, SameType q.1 q.2) ∧
      Primitive.eq.fold? mismatched = some (.bool false) := by
  decide +kernel

theorem fold?_comparison_mismatched :
    (∀ v ∈ mismatched, ¬ v.IsFloat) ∧ Primitive.lt.fold? mismatched = none ∧
      Primitive.eq.fold? mismatched = some (.bool false) := by
  have hfloat : ∀ v ∈ mismatched, ¬ v.IsFloat := by
    rintro v hv ⟨x, rfl⟩
    simp [mismatched] at hv
  obtain ⟨horder, hequal, -⟩ := fold?_comparison mismatched hfloat
  refine ⟨hfloat, ?_, ?_⟩
  · refine Option.eq_none_iff_forall_ne_some.2 fun v hv => ?_
    have hcomparable := ((horder .lt (by decide) v).1 hv).1
    exact hcomparable (.int 2, .string (Text.lit "a")) (by decide +kernel)
  · refine (hequal _).2 ⟨fun q hq => ?_, false, rfl, by decide +kernel⟩
    have hfirst : (.int 1, .int 2) = q := Option.some.inj hq
    exact hfirst ▸ rfl

end Primitive
end StackLisp
