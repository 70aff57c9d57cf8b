import Mathlib.Data.Rat.Floor
import Mathlib.Tactic.Linarith
import StackLisp.Proofs.Arguments

/-! Folding of integers is exact. The operations on words of 64 bits, which see from a wrapped
result that it is wrong, have the value that the operation has over all integers, and no value where
that is out of range. -/
namespace StackLisp

/-- The integers of 64 bits. -/
def InRange (n : Int) : Prop := -2 ^ 63 ≤ n ∧ n ≤ 2 ^ 63 - 1

namespace Checked

variable {a b r : Int64}

theorem inRange_toInt (a : Int64) : InRange a.toInt :=
  ⟨a.le_toInt, Int.le_sub_one_of_lt a.toInt_lt⟩

theorem exists_toInt {n : Int} (h : InRange n) : ∃ r : Int64, r.toInt = n :=
  ⟨.ofInt n, Int64.toInt_ofInt_of_le h.1 (Int.lt_of_le_sub_one h.2)⟩

/-- Wrapping around moves an integer by a multiple of the number of words. -/
theorem exists_bmod_eq (n : Int) : ∃ k, n.bmod (2 ^ 64) = n - k * 2 ^ 64 :=
  ⟨n.bdiv (2 ^ 64), Int.bmod_eq_self_sub_bdiv_mul n (2 ^ 64)⟩

theorem bmod_eq_self {n : Int} (h : InRange n) : n.bmod (2 ^ 64) = n :=
  Int.bmod_eq_of_le h.1 (Int.lt_of_le_sub_one h.2)

/-- A wrapped result that is given up exactly when it is wrong is the exact one. -/
theorem guarded_eq_some {n : Int} {s : Int64} {wrong : Prop} [Decidable wrong]
    (hs : s.toInt = n.bmod (2 ^ 64)) (hwrong : wrong ↔ ¬ InRange n) :
    (if wrong then none else some s) = some r ↔ r.toInt = n := by
  by_cases hn : InRange n
  · rw [if_neg fun hw => hwrong.1 hw hn, Option.some_inj, ← Int64.toInt_inj, hs, bmod_eq_self hn]
    exact eq_comm
  · rw [if_pos (hwrong.2 hn)]
    constructor
    · intro h
      cases h
    · rintro rfl
      exact absurd (inRange_toInt r) hn

theorem add_eq_some : add a b = some r ↔ r.toInt = a.toInt + b.toInt := by
  have hs := Int64.toInt_add a b
  refine guarded_eq_some hs ?_
  obtain ⟨k, hk⟩ := exists_bmod_eq (a.toInt + b.toInt)
  have ha := inRange_toInt a
  have hb := inRange_toInt b
  have hab := inRange_toInt (a + b)
  simp only [Int64.lt_iff_toInt_lt, Int64.toInt_zero]
  unfold InRange at *
  omega

theorem sub_eq_some : sub a b = some r ↔ r.toInt = a.toInt - b.toInt := by
  have hs := Int64.toInt_sub a b
  refine guarded_eq_some hs ?_
  obtain ⟨k, hk⟩ := exists_bmod_eq (a.toInt - b.toInt)
  have ha := inRange_toInt a
  have hb := inRange_toInt b
  have hab := inRange_toInt (a - b)
  simp only [Int64.lt_iff_toInt_lt, Int64.toInt_zero]
  unfold InRange at *
  omega

/-- A division of words is exact, but for the one whose result is too large. -/
theorem toInt_div (h : ¬ (a = .minValue ∧ b = -1)) : (a / b).toInt = a.toInt.tdiv b.toInt := by
  by_cases ha : a = .minValue
  · exact Int64.toInt_div_of_ne_right a b fun hb => h ⟨ha, hb⟩
  · exact Int64.toInt_div_of_ne_left a b ha

theorem toInt_minusOne : (-1 : Int64).toInt = -1 := by decide

theorem toInt_ne_zero (h : b ≠ 0) : b.toInt ≠ 0 :=
  fun hb => h (Int64.toInt_inj.1 hb)

theorem natAbs_tmod_lt (n : Int) {m : Int} (hm : m ≠ 0) : (n.tmod m).natAbs < m.natAbs := by
  rw [Int.natAbs_tmod]
  exact Nat.mod_lt _ (Int.natAbs_pos.2 hm)

/-- If dividing a wrapped product gives the factor back, the product has not wrapped. -/
theorem inRange_of_div_eq (hb : b ≠ 0) (hspecial : ¬ (b = -1 ∧ a = .minValue))
    (h : a * b / b = a) : InRange (a.toInt * b.toInt) := by
  obtain ⟨k, hk⟩ := exists_bmod_eq (a.toInt * b.toInt)
  have hp := (Int64.toInt_mul a b).trans hk
  have ha := inRange_toInt a
  have hb' := inRange_toInt b
  have hpr := inRange_toInt (a * b)
  have hdiv : (a * b).toInt.tdiv b.toInt = a.toInt := by
    by_cases hwrap : a * b = .minValue ∧ b = -1
    · -- The product of the smallest word is the smallest word again.
      obtain ⟨hmin, rfl⟩ := hwrap
      rw [hmin, Int64.toInt_minValue] at hp
      rw [toInt_minusOne] at hp
      refine absurd ⟨rfl, Int64.toInt_inj.1 ?_⟩ hspecial
      rw [Int64.toInt_minValue]
      unfold InRange at *
      omega
    · rw [← toInt_div hwrap, h]
  have hmod := Int.mul_tdiv_add_tmod (a * b).toInt b.toInt
  have hlt := natAbs_tmod_lt (a * b).toInt (toInt_ne_zero hb)
  rw [hdiv, hp, Int.mul_comm] at hmod
  rw [hp] at hlt hpr
  generalize a.toInt * b.toInt = n at *
  unfold InRange at *
  omega

theorem mul_eq_some : mul a b = some r ↔ r.toInt = a.toInt * b.toInt := by
  unfold mul
  split
  · next h =>
    have hzero : a.toInt * b.toInt = 0 := by
      rcases h with rfl | rfl
      · exact Int.zero_mul _
      · exact Int.mul_zero _
    rw [hzero, Option.some_inj, ← Int64.toInt_inj]
    exact eq_comm
  · next h =>
    rw [not_or] at h
    refine guarded_eq_some (Int64.toInt_mul a b) ?_
    have hmin : ¬ InRange (-1 * -2 ^ 63) := by
      unfold InRange
      omega
    constructor
    · rintro (hne | ⟨rfl, rfl⟩ | ⟨rfl, rfl⟩)
      · intro hn
        refine hne (Int64.toInt_inj.1 ?_)
        rw [Int64.toInt_div, Int64.toInt_mul, bmod_eq_self hn,
          Int.mul_tdiv_cancel _ (toInt_ne_zero h.2), bmod_eq_self (inRange_toInt a)]
      · exact hmin
      · exact hmin
    · intro hn
      by_contra hguard
      rw [not_or, not_or, not_not] at hguard
      exact hn (inRange_of_div_eq h.2 hguard.2.2 hguard.1)

theorem divide_eq_some {div : Int64 → Int64 → Option Int64} :
    divide div a b = some r ↔
      b.toInt ≠ 0 ∧ ¬ (a = .minValue ∧ b = -1) ∧ div a b = some r := by
  have hzero : b.toInt = 0 ↔ b = 0 := Int64.toInt_inj (y := 0)
  unfold divide
  rw [ne_eq, hzero]
  split
  · next h =>
    refine ⟨fun h => (by cases h), fun ⟨hb, hno, _⟩ => ?_⟩
    exact absurd h (not_or.2 ⟨hb, hno⟩)
  · next h =>
    rw [not_or] at h
    exact ⟨fun hr => ⟨h.1, h.2, hr⟩, fun hr => hr.2.2⟩

/-- The division that is never made has a quotient that is too large. -/
theorem not_inRange_quotient {q : Int} (h : a = .minValue ∧ b = -1)
    (hq : a.toInt = q * b.toInt) : ¬ InRange q := by
  obtain ⟨rfl, rfl⟩ := h
  rw [toInt_minusOne, Int64.toInt_minValue] at hq
  unfold InRange
  omega

theorem exactQuotient_eq_some :
    divide exactQuotient a b = some r ↔ b.toInt ≠ 0 ∧ a.toInt = r.toInt * b.toInt := by
  rw [divide_eq_some]
  refine and_congr_right fun hb => ⟨fun ⟨hno, h⟩ => ?_, fun hq => ?_⟩
  · unfold exactQuotient at h
    split at h
    · next hmod =>
      cases h
      rw [← Int64.toInt_inj, Int64.toInt_mod] at hmod
      rw [toInt_div hno, Int.tdiv_mul_cancel_of_tmod_eq_zero hmod]
    · cases h
  · have hno : ¬ (a = .minValue ∧ b = -1) := fun h =>
      not_inRange_quotient h hq (inRange_toInt r)
    have hmod : a % b = 0 := by
      rw [← Int64.toInt_inj, Int64.toInt_mod, hq]
      exact Int.mul_tmod_left _ _
    refine ⟨hno, ?_⟩
    rw [exactQuotient, if_pos hmod, Option.some_inj, ← Int64.toInt_inj, toInt_div hno, hq,
      Int.mul_tdiv_cancel _ hb]

/-- A quotient is rounded down if the remainder lies between zero and the divisor. -/
theorem floor_div_eq {n m q r : Int} (hn : n = q * m + r) (hr : 0 ≤ r ∧ r < m ∨ m < r ∧ r ≤ 0) :
    ⌊(n : ℚ) / m⌋ = q := by
  have hm : (m : ℚ) ≠ 0 := by
    rw [Int.cast_ne_zero]
    omega
  have hfrac : (n : ℚ) / m = q + r / m := by
    rw [hn, Int.cast_add, Int.cast_mul, add_div, mul_div_cancel_right₀ _ hm]
  rw [hfrac, Int.floor_eq_iff]
  rcases hr with ⟨h0, hlt⟩ | ⟨hlt, h0⟩
  · have hpos : (0 : ℚ) < m := by
      rw [Int.cast_pos]
      omega
    have hge : (0 : ℚ) ≤ r / m := div_nonneg (Int.cast_nonneg h0) hpos.le
    have hone : (r : ℚ) / m < 1 := (div_lt_one hpos).2 (Int.cast_lt.2 hlt)
    exact ⟨by linarith, by linarith⟩
  · have hneg : (m : ℚ) < 0 := by
      rw [Int.cast_lt_zero]
      omega
    have hge : (0 : ℚ) ≤ r / m := div_nonneg_of_nonpos (Int.cast_nonpos.2 h0) hneg.le
    have hone : (r : ℚ) / m < 1 := (div_lt_one_of_neg hneg).2 (Int.cast_lt.2 hlt)
    exact ⟨by linarith, by linarith⟩

/-- The remainder of the machine has the sign of the dividend. -/
theorem sign_tmod (n m : Int) : (0 ≤ n → 0 ≤ n.tmod m) ∧ (n < 0 → n.tmod m ≤ 0) := by
  refine ⟨Int.tmod_nonneg m, fun hn => ?_⟩
  have h := Int.tmod_nonneg m (Int.neg_nonneg.2 hn.le)
  rw [Int.neg_tmod] at h
  omega

theorem toInt_floorQuotient (hb : b.toInt ≠ 0) (hno : ¬ (a = .minValue ∧ b = -1)) :
    ∃ q, floorQuotient a b = some q ∧ q.toInt = ⌊(a.toInt : ℚ) / b.toInt⌋ := by
  have hsplit := Int.tdiv_mul_add_tmod a.toInt b.toInt
  have hlt := natAbs_tmod_lt a.toInt hb
  have hsign := sign_tmod a.toInt b.toInt
  have hmod : a % b = 0 ↔ a.toInt.tmod b.toInt = 0 := by
    rw [← Int64.toInt_inj, Int64.toInt_mod, Int64.toInt_zero]
  have hquot := toInt_div hno
  rw [← hquot] at hsplit
  have hsigns : decide (a < 0) ≠ decide (b < 0) ↔ ¬ (a.toInt < 0 ↔ b.toInt < 0) := by
    rw [ne_eq, decide_eq_decide, Int64.lt_iff_toInt_lt, Int64.lt_iff_toInt_lt, Int64.toInt_zero]
  generalize a.toInt.tmod b.toInt = t at *
  unfold floorQuotient
  split
  · next h =>
    rw [ne_eq, hmod, hsigns] at h
    refine ⟨_, rfl, ?_⟩
    -- There is a fraction, so the divisor is not one and the quotient not the smallest word.
    have hrange : InRange ((a / b).toInt - 1) := by
      have hq := inRange_toInt (a / b)
      have ha := inRange_toInt a
      have hb' := inRange_toInt b
      unfold InRange at *
      refine ⟨?_, by omega⟩
      by_contra hout
      have hq' : (a / b).toInt = -2 ^ 63 := by omega
      rw [hq'] at hsplit
      omega
    have hone : (1 : Int64).toInt = 1 := by decide
    rw [Int64.toInt_sub, hone, bmod_eq_self hrange]
    refine (floor_div_eq (r := t + b.toInt) ?_ (by omega)).symm
    rw [Int.sub_mul]
    omega
  · next h =>
    rw [ne_eq, hmod, hsigns] at h
    exact ⟨_, rfl, (floor_div_eq hsplit.symm (by omega)).symm⟩

theorem floorQuotient_eq_some :
    divide floorQuotient a b = some r ↔
      b.toInt ≠ 0 ∧ r.toInt = ⌊(a.toInt : ℚ) / b.toInt⌋ := by
  rw [divide_eq_some]
  refine and_congr_right fun hb => ⟨fun ⟨hno, h⟩ => ?_, fun hr => ?_⟩
  · obtain ⟨q, hq, hfloor⟩ := toInt_floorQuotient hb hno
    cases h.symm.trans hq
    exact hfloor
  · have hno : ¬ (a = .minValue ∧ b = -1) := by
      intro h
      have hquot : a.toInt = 2 ^ 63 * b.toInt := by
        obtain ⟨rfl, rfl⟩ := h
        decide
      have hfloor : ⌊(a.toInt : ℚ) / b.toInt⌋ = 2 ^ 63 :=
        floor_div_eq (r := 0) (by omega) (by omega)
      exact not_inRange_quotient h hquot (hfloor ▸ hr ▸ inRange_toInt r)
    obtain ⟨q, hq, hfloor⟩ := toInt_floorQuotient hb hno
    exact ⟨hno, by rw [hq, Option.some_inj, ← Int64.toInt_inj, hfloor, hr]⟩

theorem rem_eq_some : rem a b = some r ↔ b.toInt ≠ 0 ∧ r.toInt = a.toInt.tmod b.toInt := by
  have hzero : b.toInt = 0 ↔ b = 0 := Int64.toInt_inj (y := 0)
  unfold rem
  rw [ne_eq, hzero]
  split
  · next h => exact ⟨fun h => (by cases h), fun hr => absurd h hr.1⟩
  · next hb =>
    rw [and_iff_right hb]
    split
    · next h =>
      have hmod : a.toInt.tmod b.toInt = 0 := by
        rw [h, toInt_minusOne, Int.tmod_neg, Int.tmod_one]
      rw [Option.some_inj, ← Int64.toInt_inj, hmod]
      exact eq_comm
    · rw [Option.some_inj, ← Int64.toInt_inj, Int64.toInt_mod]
      exact eq_comm

theorem abs_eq_some : abs a = some r ↔ r.toInt = |a.toInt| := by
  have ha := inRange_toInt a
  have hr := inRange_toInt r
  unfold abs
  split
  · next h =>
    subst h
    refine ⟨fun h => (by cases h), fun h => ?_⟩
    rw [Int64.toInt_minValue, abs_neg, abs_of_nonneg (by decide)] at h
    unfold InRange at hr
    omega
  · next hmin =>
    rw [← Int64.toInt_inj, Int64.toInt_minValue] at hmin
    split
    · next hneg =>
      rw [Int64.lt_iff_toInt_lt, Int64.toInt_zero] at hneg
      have hrange : InRange (-a.toInt) := by
        unfold InRange at *
        omega
      rw [Option.some_inj, ← Int64.toInt_inj, Int64.toInt_neg, bmod_eq_self hrange,
        abs_of_neg hneg]
      exact eq_comm
    · next hneg =>
      rw [Int64.lt_iff_toInt_lt, Int64.toInt_zero] at hneg
      rw [Option.some_inj, ← Int64.toInt_inj, abs_of_nonneg (Int.not_lt.1 hneg)]
      exact eq_comm

/-- The remainder is smaller than the divisor and on the same side of zero as the dividend. -/
theorem tmod_eq_iff {n m r : Int} (hm : m ≠ 0) :
    r = n.tmod m ↔ (∃ q, n = q * m + r) ∧ r.natAbs < m.natAbs ∧ 0 ≤ n * r := by
  have hsign := sign_tmod n m
  have hlt := natAbs_tmod_lt n hm
  constructor
  · rintro rfl
    refine ⟨⟨n.tdiv m, (Int.tdiv_mul_add_tmod n m).symm⟩, hlt, ?_⟩
    rcases Int.le_total 0 n with hn | hn
    · exact Int.mul_nonneg hn (hsign.1 hn)
    · rcases Int.lt_or_eq_of_le hn with hn' | rfl
      · exact Int.mul_nonneg_of_nonpos_of_nonpos hn (hsign.2 hn')
      · exact (Int.zero_mul _).ge
  · rintro ⟨⟨q, hq⟩, hr, hnr⟩
    have hdvd : m ∣ r - n.tmod m := by
      refine ⟨n.tdiv m - q, ?_⟩
      have h := Int.tdiv_mul_add_tmod n m
      rw [Int.mul_sub, Int.mul_comm m, Int.mul_comm m]
      omega
    have hside : (0 < n → 0 ≤ r) ∧ (n < 0 → r ≤ 0) :=
      ⟨fun hn => nonneg_of_mul_nonneg_right hnr hn, fun hn => nonpos_of_mul_nonneg_right hnr hn⟩
    have hzero : n = 0 → n.tmod m = 0 := by
      rintro rfl
      exact Int.zero_tmod m
    have hsmall : (r - n.tmod m).natAbs < m.natAbs := by omega
    have heq := Int.eq_zero_of_dvd_of_natAbs_lt_natAbs hdvd hsmall
    omega

end Checked

/-! ### Operations over all integers -/

namespace Primitive

/-- The third integer is what the operation makes of the first two. -/
def Combines : Primitive → Int → Int → Int → Prop
  | .add, a, b, r => r = a + b
  | .sub, a, b, r => r = a - b
  | .mul, a, b, r => r = a * b
  | .div, a, b, r => b ≠ 0 ∧ a = r * b
  | .floorDiv, a, b, r => b ≠ 0 ∧ r = ⌊(a : ℚ) / b⌋
  | .rem, a, b, r => b ≠ 0 ∧ (∃ q, a = q * b + r) ∧ r.natAbs < b.natAbs ∧ 0 ≤ a * r
  | _, _, _, _ => False

/-- The operation comes from one integer to another, taking operands from left to right, and all
that it comes to on its way is in range. -/
inductive Reaches (p : Primitive) : Int → List Int → Int → Prop where
  | stop {n} : InRange n → Reaches p n [] n
  | step {n m k ns r} : InRange n → p.Combines n m k → Reaches p k ns r → Reaches p n (m :: ns) r

/-- The value of a call over the integers. -/
def Computes : Primitive → List Int → Int → Prop
  | .add, ns, r => Reaches .add 0 ns r
  | .mul, ns, r => Reaches .mul 1 ns r
  | .sub, [n], r => Reaches .sub 0 [n] r
  | .div, [n], r => Reaches .div 1 [n] r
  | .floorDiv, [n], r => Reaches .floorDiv 1 [n] r
  | .abs, [n], r => InRange r ∧ r = |n|
  | p, n :: ns, r => Reaches p n ns r
  | _, [], _ => False

theorem Reaches.inRange {p : Primitive} {n r : Int} {ns : List Int} (h : Reaches p n ns r) :
    InRange n ∧ InRange r := by
  induction h with
  | stop hn => exact ⟨hn, hn⟩
  | step hn _ _ ih => exact ⟨hn, ih.2⟩

theorem reaches_cons {p : Primitive} {n m r : Int} {ns : List Int} :
    Reaches p n (m :: ns) r ↔ InRange n ∧ ∃ k, p.Combines n m k ∧ Reaches p k ns r :=
  ⟨fun h => by cases h with | step hn hk hr => exact ⟨hn, _, hk, hr⟩,
    fun ⟨hn, _, hk, hr⟩ => .step hn hk hr⟩

theorem Computes.inRange {p : Primitive} {ns : List Int} {r : Int} (h : p.Computes ns r) :
    InRange r := by
  unfold Computes at h
  split at h
  case h_6 => exact h.1
  case h_8 => cases h
  all_goals exact h.inRange.2

end Primitive

namespace Folding

open Primitive

theorem ofValues?_ints (ns : List Int64) :
    Numbers.ofValues? (ns.map .int) = some (.ints ns) := by
  have h : (ns.map Value.int).mapM Value.toInt64? = some ns := by
    induction ns with
    | nil => rfl
    | cons n ns ih =>
      rw [List.map_cons, List.mapM_cons, ih]
      rfl
  rw [Numbers.ofValues?, h]

variable {p : Primitive} {step : Int64 → Int64 → Option Int64}

/-- If each step is exact, so is the whole chain, and a chain that leaves the range has no value. -/
theorem chainInt_eq_some (hstep : ∀ a b r, step a b = some r ↔ p.Combines a.toInt b.toInt r.toInt)
    {n : Int64} {ns : List Int64} {v : Value} :
    chainInt step n ns = some v ↔
      ∃ r : Int64, v = .int r ∧ Reaches p n.toInt (ns.map Int64.toInt) r.toInt := by
  induction ns generalizing n with
  | nil =>
    constructor
    · intro h
      cases h
      exact ⟨n, rfl, .stop (Checked.inRange_toInt n)⟩
    · rintro ⟨r, rfl, h⟩
      generalize hr : r.toInt = k at h
      cases h
      rw [Int64.toInt_inj.1 hr]
      rfl
  | cons m ns ih =>
    rw [chainInt, Option.bind_eq_bind, Option.bind_eq_some_iff]
    simp only [ih, hstep, List.map_cons, reaches_cons]
    constructor
    · rintro ⟨k, hk, r, rfl, hr⟩
      exact ⟨r, rfl, Checked.inRange_toInt n, k.toInt, hk, hr⟩
    · rintro ⟨r, rfl, _, k, hk, hr⟩
      obtain ⟨k', rfl⟩ := Checked.exists_toInt hr.inRange.1
      exact ⟨k', hk, r, rfl, hr⟩

theorem sum_ints (ns : List Int64) : sum (ns.map .int) = chainInt Checked.add 0 ns := by
  rw [sum, ofValues?_ints]
  rfl

theorem product_ints (ns : List Int64) : product (ns.map .int) = chainInt Checked.mul 1 ns := by
  rw [product, ofValues?_ints]
  rfl

theorem difference_ints (n m : Int64) (ns : List Int64) :
    difference ((n :: m :: ns).map .int) = chainInt Checked.sub n (m :: ns) := by
  rw [difference, ofValues?_ints]
  rfl

theorem quotient_int (div : Int64 → Int64 → Option Int64) (divFloat : Double → Double → Double)
    (n : Int64) : quotient div divFloat [.int n] = chainInt (Checked.divide div) 1 [n] := rfl

theorem quotient_ints (div : Int64 → Int64 → Option Int64) (divFloat : Double → Double → Double)
    (n m : Int64) (ns : List Int64) :
    quotient div divFloat ((n :: m :: ns).map .int) =
      chainInt (Checked.divide div) n (m :: ns) := by
  rw [quotient, ofValues?_ints]
  rfl

theorem remainder_ints (a b : Int64) :
    remainder [.int a, .int b] = chainInt Checked.rem a [b] := by
  change (Checked.rem a b).map Value.int = (Checked.rem a b).bind fun r => some (.int r)
  exact Option.map_eq_bind

end Folding

namespace Primitive

open Folding

/-- The operations on integers. -/
def integral : List Primitive := [.add, .sub, .mul, .div, .floorDiv, .rem, .abs]

theorem combines_rem {a b r : Int64} :
    Checked.rem a b = some r ↔ Combines .rem a.toInt b.toInt r.toInt := by
  rw [Checked.rem_eq_some]
  exact and_congr_right fun hb => Checked.tmod_eq_iff hb

/-- A division takes at least one operand; a single one divides one. -/
theorem quotient_eq_some {p : Primitive} (hp : p = .div ∨ p = .floorDiv)
    {div : Int64 → Int64 → Option Int64} {divFloat : Double → Double → Double}
    (hdiv : ∀ a b r, Checked.divide div a b = some r ↔ p.Combines a.toInt b.toInt r.toInt)
    {args : List Int64} (hargs : 1 ≤ args.length) {v : Value} :
    quotient div divFloat (args.map .int) = some v ↔
      ∃ r : Int64, v = .int r ∧ p.Computes (args.map Int64.toInt) r.toInt := by
  obtain ⟨n, rest, rfl⟩ := List.exists_cons_of_length_pos hargs
  cases rest with
  | nil =>
    refine (congrArg (· = some v) (quotient_int div divFloat n)).to_iff.trans ?_
    rw [chainInt_eq_some hdiv]
    rcases hp with rfl | rfl <;> rfl
  | cons m ns =>
    rw [quotient_ints, chainInt_eq_some hdiv]
    rcases hp with rfl | rfl <;> rfl

theorem fold?_eq_some {p : Primitive} (hp : p ∈ integral) {args : List Int64}
    (harity : p.arity.accepts args.length = true) {v : Value} :
    p.fold? (args.map .int) = some v ↔
      ∃ r : Int64, v = .int r ∧ p.Computes (args.map Int64.toInt) r.toInt := by
  unfold integral at hp
  simp only [List.mem_cons, List.not_mem_nil, or_false] at hp
  rcases hp with rfl | rfl | rfl | rfl | rfl | rfl | rfl
  · rw [fold?, sum_ints]
    exact chainInt_eq_some fun _ _ _ => Checked.add_eq_some
  · obtain ⟨n, rest, rfl⟩ := List.exists_cons_of_length_pos (length_of_atLeast rfl harity)
    cases rest with
    | nil => exact chainInt_eq_some (p := .sub) fun _ _ _ => Checked.sub_eq_some
    | cons m ns =>
      rw [fold?, difference_ints]
      exact chainInt_eq_some fun _ _ _ => Checked.sub_eq_some
  · rw [fold?, product_ints]
    exact chainInt_eq_some fun _ _ _ => Checked.mul_eq_some
  · exact quotient_eq_some (.inl rfl) (fun _ _ _ => Checked.exactQuotient_eq_some)
      (length_of_atLeast rfl harity)
  · exact quotient_eq_some (.inr rfl) (fun _ _ _ => Checked.floorQuotient_eq_some)
      (length_of_atLeast rfl harity)
  · obtain ⟨a, b, rfl⟩ := List.length_eq_two.1 (length_of_exactly rfl harity)
    refine (congrArg (· = some v) (remainder_ints a b)).to_iff.trans ?_
    exact chainInt_eq_some (p := .rem) fun _ _ _ => combines_rem
  · obtain ⟨a, rfl⟩ := List.length_eq_one_iff.1 (length_of_exactly rfl harity)
    refine Option.map_eq_some_iff.trans (exists_congr fun r => ?_)
    rw [Checked.abs_eq_some, and_comm, eq_comm]
    exact and_congr_right fun _ => (and_iff_right (Checked.inRange_toInt r)).symm

/-- Folding of integers is exact: a call has the value that its operation has over all integers,
from left to right, and it has no value exactly if a divisor on the way is zero, a division that has
to be exact is not, or a result on the way is out of range. -/
theorem fold?_integers {p : Primitive} (hp : p ∈ integral) (args : List Int64)
    (harity : p.arity.accepts args.length = true) :
    (∀ v, p.fold? (args.map .int) = some v ↔
      ∃ r : Int64, v = .int r ∧ p.Computes (args.map Int64.toInt) r.toInt) ∧
    (p.fold? (args.map .int) = none ↔ ∀ n, ¬ p.Computes (args.map Int64.toInt) n) := by
  refine ⟨fun v => fold?_eq_some hp harity, ?_⟩
  rw [Option.eq_none_iff_forall_ne_some]
  constructor
  · intro h n hn
    obtain ⟨r, rfl⟩ := Checked.exists_toInt hn.inRange
    exact h (.int r) ((fold?_eq_some hp harity).2 ⟨r, rfl, hn⟩)
  · intro h v hv
    obtain ⟨r, -, hr⟩ := (fold?_eq_some hp harity).1 hv
    exact h _ hr

/-- The machine wraps this product around to its first factor, and dividing gives that back. -/
theorem fold?_product_of_least :
    .mul ∈ integral ∧ Primitive.mul.arity.accepts 2 = true ∧
      Int64.minValue * -1 / -1 = Int64.minValue ∧
      Primitive.mul.fold? [.int .minValue, .int (-1)] = none ∧
      ∀ n, ¬ Computes .mul [-0x8000000000000000, -1] n := by
  have hnone : Primitive.mul.fold? [.int .minValue, .int (-1)] = none := by decide
  have hexact := fold?_integers (p := .mul) (by decide) [.minValue, -1] (by decide)
  exact ⟨by decide, by decide, by decide, hnone, hexact.2.1 hnone⟩

end Primitive
end StackLisp
