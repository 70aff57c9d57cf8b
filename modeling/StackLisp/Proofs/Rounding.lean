import Mathlib.Data.Nat.Bitwise
import Mathlib.Tactic.Linarith
import Mathlib.Tactic.Ring
import StackLisp.Number.Decimal
import StackLisp.Number.Literal

/-! Rounding of ratios: what lies in the neighbourhood of a floating-point number is rounded to that
number. The argument compares whole numbers only; a ratio of units is a numerator beside a
denominator. -/
namespace StackLisp

namespace Double

/-! ### The fields of a number -/

/-- The exponent of the units stays a variable, so that nothing computes the powers. -/
theorem exists_units : ∃ e, e = 1074 ∧ one = 2 ^ e ∧ Decimal.unit = 5 ^ e := by
  have hpow (b e : Nat) : Nat.pow b e = b ^ e := Nat.pow_eq
  exact ⟨1074, rfl, hpow 2 1074, hpow 5 1074⟩

theorem leadingBit_eq : leadingBit = 2 ^ 52 := by decide

theorem gap_eq (x : Double) : x.gap = 2 ^ (x.exponentField - 1) := rfl

theorem gap_pos (x : Double) : 0 < x.gap := Nat.pow_pos (by decide)

theorem fractionField_lt (x : Double) : x.fractionField < leadingBit :=
  Nat.mod_lt _ (by decide)

/-- The bits of a number below its sign. -/
def magnitude (x : Double) : Nat := x.exponentField * leadingBit + x.fractionField

theorem magnitude_eq (x : Double) :
    x.magnitude = (x.exponentField - 1) * leadingBit + x.significand := by
  unfold magnitude significand
  split
  · next h => rw [h, Nat.zero_sub]
  · next h =>
    obtain ⟨e, he⟩ := Nat.exists_eq_succ_of_ne_zero h
    rw [he, Nat.succ_sub_one, Nat.succ_mul, Nat.add_assoc]

theorem significand_lt (x : Double) : x.significand < 2 * leadingBit := by
  have h := x.fractionField_lt
  unfold significand
  split <;> omega

theorem leadingBit_le_significand {x : Double} (h : x.exponentField ≠ 0) :
    leadingBit ≤ x.significand := by
  rw [significand, if_neg h]
  omega

theorem signBit_toNat : signBit.toNat = 2 ^ 63 := by decide

theorem isNegative_iff (x : Double) : x.isNegative = true ↔ 2 ^ 63 ≤ x.bits.toNat := by
  have hbound := x.bits.toNat_lt
  have hbit : (x.bits &&& signBit).toNat = (x.bits.toNat.testBit 63).toNat * 2 ^ 63 := by
    rw [UInt64.toNat_and, signBit_toNat, Nat.and_two_pow]
  rw [isNegative, bne_iff_ne, Ne, ← UInt64.toNat_inj, hbit, Nat.testBit_eq_decide_div_mod_eq]
  by_cases h : x.bits.toNat / 2 ^ 63 % 2 = 1
  · simp only [h, decide_true, Bool.toNat_true]
    constructor
    · omega
    · intro _
      decide
  · simp only [h, decide_false, Bool.toNat_false]
    constructor
    · intro hne
      exact absurd rfl hne
    · omega

theorem signed_magnitude (x : Double) : signed x.isNegative x.magnitude.toUInt64 = x := by
  have hbound := x.bits.toNat_lt
  have hlow : x.magnitude = x.bits.toNat % 2 ^ 63 := by
    unfold magnitude exponentField fractionField leadingBit
    omega
  have hword : x.magnitude.toUInt64.toNat = x.bits.toNat % 2 ^ 63 := by
    rw [hlow]
    exact Nat.mod_eq_of_lt (by omega)
  have hbits : (signed x.isNegative x.magnitude.toUInt64).bits = x.bits := by
    rw [← UInt64.toNat_inj, signed]
    by_cases hneg : x.isNegative = true
    · have hhigh := x.isNegative_iff.1 hneg
      have hor := Nat.two_pow_add_eq_or_of_lt (Nat.mod_lt x.bits.toNat (Nat.two_pow_pos 63)) 1
      rw [Nat.mul_one] at hor
      rw [if_pos hneg, UInt64.toNat_or, hword, signBit_toNat, ← hor]
      omega
    · have hhigh : ¬ 2 ^ 63 ≤ x.bits.toNat := fun hle => hneg (x.isNegative_iff.2 hle)
      rw [if_neg hneg, hword]
      omega
  exact congrArg Double.mk hbits

/-! ### Rounding to whole numbers -/

theorem divideEven_eq {n d s : Nat} (hd : 0 < d) (hlow : 2 * (s * d) ≤ 2 * n + d)
    (hhigh : 2 * n ≤ 2 * (s * d) + d)
    (heven : 2 * (s * d) = 2 * n + d ∨ 2 * n = 2 * (s * d) + d → s % 2 = 0) :
    divideEven n d = s := by
  have hsplit : d * (n / d) + n % d = n := Nat.div_add_mod n d
  have hrem : n % d < d := Nat.mod_lt n hd
  unfold divideEven
  dsimp only
  generalize n / d = q at hsplit ⊢
  generalize n % d = r at hsplit hrem ⊢
  -- the quotient is `s` or the number below it
  have hle : q ≤ s := by
    by_contra hlt
    have hmul : d * (s + 1) ≤ d * q := Nat.mul_le_mul_left d (by omega)
    rw [Nat.mul_add, Nat.mul_comm d s] at hmul
    omega
  have hge : s ≤ q + 1 := by
    by_contra hlt
    have hmul : d * (q + 2) ≤ d * s := Nat.mul_le_mul_left d (by omega)
    rw [Nat.mul_add, Nat.mul_comm d s] at hmul
    omega
  obtain rfl | rfl : s = q ∨ s = q + 1 := by omega
  · rw [Nat.mul_comm s d] at hlow hhigh heven
    split <;> omega
  · rw [Nat.mul_comm (q + 1) d, Nat.mul_add] at hlow hhigh heven
    split <;> omega

/-- The scale leaves 53 bits before the point, or fewer if it is the least. -/
theorem scaleOf_spec {n d : Nat} (hn : n ≠ 0) (hd : d ≠ 0) :
    n * one < 2 * leadingBit * (d * 2 ^ scaleOf n d) ∧
      (scaleOf n d ≠ 0 → leadingBit * (d * 2 ^ scaleOf n d) ≤ n * one) := by
  have hn_low : 2 ^ n.log2 ≤ n := Nat.log2_self_le hn
  have hn_high : n < 2 ^ (n.log2 + 1) := Nat.lt_log2_self
  have hd_low : 2 ^ d.log2 ≤ d := Nat.log2_self_le hd
  have hd_high : d < 2 ^ (d.log2 + 1) := Nat.lt_log2_self
  obtain ⟨k, hk⟩ : ∃ k, n.log2 + 1074 - d.log2 - 53 = k := ⟨_, rfl⟩
  have hpos : 0 < d * 2 ^ k := Nat.mul_pos (Nat.pos_of_ne_zero hd) (Nat.pow_pos (by decide))
  obtain ⟨e, he, hone, -⟩ := exists_units
  have hhigh : n * one < 4 * leadingBit * (d * 2 ^ k) := by
    calc n * one < 2 ^ (n.log2 + 1) * 2 ^ e := by
          rw [hone]
          exact Nat.mul_lt_mul_of_pos_right hn_high (Nat.pow_pos (by decide))
      _ = 2 ^ (n.log2 + 1 + e) := (Nat.pow_add _ _ _).symm
      _ ≤ 2 ^ (54 + (d.log2 + k)) := Nat.pow_le_pow_right (by decide) (by omega)
      _ = 4 * leadingBit * (2 ^ d.log2 * 2 ^ k) := by
          rw [Nat.pow_add 2 54, Nat.pow_add 2 d.log2]
          rfl
      _ ≤ 4 * leadingBit * (d * 2 ^ k) := by gcongr
  have hlow : k ≠ 0 → leadingBit * (d * 2 ^ k) ≤ n * one := by
    intro hk0
    have hexp : 52 + (d.log2 + 1 + k) = n.log2 + e := by omega
    calc leadingBit * (d * 2 ^ k) ≤ 2 ^ 52 * (2 ^ (d.log2 + 1) * 2 ^ k) := by
          rw [leadingBit_eq]
          gcongr
      _ = 2 ^ (n.log2 + e) := by
          rw [← Nat.pow_add, ← Nat.pow_add, hexp]
      _ = 2 ^ n.log2 * 2 ^ e := Nat.pow_add _ _ _
      _ ≤ n * one := by
          rw [hone]
          exact Nat.mul_le_mul_right _ hn_low
  have hscale : scaleOf n d = if n * one / (d * 2 ^ k) ≥ 2 * leadingBit then k + 1 else k := by
    rw [scaleOf, hk]
    rfl
  rw [hscale]
  split
  · next hge =>
    have hmul := (Nat.le_div_iff_mul_le hpos).1 hge
    rw [Nat.pow_succ]
    constructor
    · linarith
    · intro _
      linarith
  · next hlt =>
    refine ⟨?_, hlow⟩
    exact (Nat.div_lt_iff_lt_mul hpos).1 (Nat.lt_of_not_ge hlt)

/-! ### Neighbourhoods -/

/-- The distance, in units, to the next smaller magnitude. It is half the gap where the exponent
changes. -/
def gapBelow (x : Double) : Nat :=
  if x.fractionField = 0 ∧ x.exponentField > 1 then x.gap / 2 else x.gap

theorem gapBelow_le (x : Double) : x.gapBelow ≤ x.gap := by
  unfold gapBelow
  split
  · exact Nat.div_le_self _ _
  · exact Nat.le_refl _

/-- A number of less than a gap is zero. -/
theorem magnitude_eq_zero {x : Double} (h : 2 * (x.significand * x.gap) ≤ x.gap) :
    x.magnitude = 0 := by
  have hzero : x.significand = 0 := by
    by_contra hne
    have hmul : 1 * x.gap ≤ x.significand * x.gap :=
      Nat.mul_le_mul_right x.gap (Nat.pos_of_ne_zero hne)
    have hpos := x.gap_pos
    omega
  have hexp : x.exponentField = 0 := by
    by_contra hne
    have hle := leadingBit_le_significand hne
    rw [hzero] at hle
    exact absurd hle (by decide)
  rw [magnitude_eq, hzero, hexp]
  simp

/-- The ratio of `n` to `d`, in units, is no farther from `x` than half of the distance to the next
number on its side, and so far only if `x` has an even significand. -/
structure Near (x : Double) (n d : Nat) : Prop where
  low : 2 * (x.significand * x.gap) * d ≤ 2 * n + x.gapBelow * d
  high : 2 * n ≤ (2 * (x.significand * x.gap) + x.gap) * d
  even : 2 * (x.significand * x.gap) * d = 2 * n + x.gapBelow * d ∨
    2 * n = (2 * (x.significand * x.gap) + x.gap) * d → x.significand % 2 = 0

namespace Near

variable {x : Double} {n d : Nat}

/-- At the scale of `x` the ratio is rounded to its significand. -/
theorem divideEven_eq (h : x.Near n d) (hd : 0 < d) :
    divideEven n (d * x.gap) = x.significand := by
  have hpos : 0 < d * x.gap := Nat.mul_pos hd x.gap_pos
  have hbelow : x.gapBelow * d ≤ d * x.gap := by
    rw [Nat.mul_comm d]
    exact Nat.mul_le_mul_right d x.gapBelow_le
  have hcomm : x.significand * x.gap * d = x.significand * (d * x.gap) := by ring
  obtain ⟨hlow, hhigh, heven⟩ := h
  rw [Nat.mul_assoc, hcomm] at hlow heven
  rw [Nat.add_mul, Nat.mul_assoc, hcomm, Nat.mul_comm x.gap d] at hhigh heven
  refine Double.divideEven_eq hpos (by omega) (by omega) ?_
  intro htie
  exact heven (by omega)

/-- The ratio has no more bits before the point than `x`. -/
theorem lt_next (h : x.Near n d) (hd : 0 < d) : n < 2 * leadingBit * (d * x.gap) := by
  have hpos : 0 < d * x.gap := Nat.mul_pos hd x.gap_pos
  have hcomm : x.significand * x.gap * d = x.significand * (d * x.gap) := by ring
  have hhigh := h.high
  rw [Nat.add_mul, Nat.mul_assoc, hcomm, Nat.mul_comm x.gap d] at hhigh
  have hmul : (x.significand + 1) * (d * x.gap) ≤ 2 * leadingBit * (d * x.gap) :=
    Nat.mul_le_mul_right _ x.significand_lt
  rw [Nat.add_mul] at hmul
  omega

/-- A ratio below the scale of `x` belongs to the least number of that scale, from below. -/
theorem least_of_lt (h : x.Near n d) (hd : 0 < d) (hexp : x.exponentField - 1 ≠ 0)
    (hlt : n < leadingBit * (d * x.gap)) :
    x.significand = leadingBit ∧ (4 * leadingBit - 1) * (d * x.gap) ≤ 4 * n := by
  have hle : leadingBit ≤ x.significand := leadingBit_le_significand (by omega)
  have hpos : 0 < d * x.gap := Nat.mul_pos hd x.gap_pos
  have hcomm : x.significand * x.gap * d = x.significand * (d * x.gap) := by ring
  have hlow := h.low
  rw [Nat.mul_assoc, hcomm] at hlow
  have hbelow : x.gapBelow * d ≤ d * x.gap := by
    rw [Nat.mul_comm d]
    exact Nat.mul_le_mul_right d x.gapBelow_le
  have heq : x.significand = leadingBit := by
    by_contra hne
    have hmul : (leadingBit + 1) * (d * x.gap) ≤ x.significand * (d * x.gap) :=
      Nat.mul_le_mul_right _ (by omega)
    rw [Nat.add_mul] at hmul
    omega
  refine ⟨heq, ?_⟩
  have hfraction : x.fractionField = 0 := by
    rw [significand, if_neg (by omega)] at heq
    omega
  have hhalf : 2 * (x.gapBelow * d) = d * x.gap := by
    obtain ⟨k, hk⟩ : ∃ k, x.exponentField - 1 = k + 1 := Nat.exists_eq_succ_of_ne_zero hexp
    rw [gapBelow, if_pos ⟨hfraction, by omega⟩, gap_eq, hk, Nat.pow_succ,
      Nat.mul_div_cancel _ (by decide)]
    ring
  rw [heq] at hlow
  rw [Nat.sub_mul, Nat.mul_assoc]
  omega

/-- The scale of the ratio is that of `x`, or the one below if the ratio is rounded up to the least
number of its scale. -/
theorem scaled (h : x.Near n d) (hd : 0 < d) {k : Nat} (hhigh : n < 2 * leadingBit * (d * 2 ^ k))
    (hlow : k ≠ 0 → leadingBit * (d * 2 ^ k) ≤ n) :
    k * leadingBit + Double.divideEven n (d * 2 ^ k) = x.magnitude := by
  rw [magnitude_eq]
  rcases Nat.lt_trichotomy k (x.exponentField - 1) with hlt | rfl | hgt
  · have hpos : 0 < d * 2 ^ k := Nat.mul_pos hd (Nat.pow_pos (by decide))
    obtain ⟨j, hj⟩ := Nat.exists_eq_add_of_lt hlt
    have hgap : d * x.gap = 2 * (d * 2 ^ k * 2 ^ j) := by
      rw [gap_eq, hj, Nat.pow_succ, Nat.pow_add]
      ring
    have hone : d * 2 ^ k * 1 ≤ d * 2 ^ k * 2 ^ j :=
      Nat.mul_le_mul_left _ (Nat.pow_pos (by decide))
    obtain ⟨heq, hleast⟩ := h.least_of_lt hd (by omega) (by
      rw [hgap]
      unfold leadingBit at hhigh ⊢
      omega)
    rw [hgap] at hleast
    obtain rfl : j = 0 := by
      by_contra hne
      have htwo : d * 2 ^ k * 2 ≤ d * 2 ^ k * 2 ^ j :=
        Nat.mul_le_mul_left _ (Nat.le_self_pow hne 2)
      unfold leadingBit at hhigh hleast
      omega
    rw [Nat.pow_zero, Nat.mul_one] at hleast
    have hround : Double.divideEven n (d * 2 ^ k) = 2 * leadingBit := by
      unfold leadingBit at hhigh hleast ⊢
      exact Double.divideEven_eq hpos (by omega) (by omega) fun _ => rfl
    rw [hround, heq, hj]
    ring
  · rw [← gap_eq, h.divideEven_eq hd]
  · -- a larger scale needs more bits than the ratio has
    exfalso
    have hbound := h.lt_next hd
    have hle := hlow (by omega)
    obtain ⟨j, hj⟩ := Nat.exists_eq_add_of_lt hgt
    have hscale : d * 2 ^ k = 2 * (d * x.gap * 2 ^ j) := by
      rw [gap_eq, hj, Nat.pow_succ, Nat.pow_add]
      ring
    have hone : d * x.gap * 1 ≤ d * x.gap * 2 ^ j :=
      Nat.mul_le_mul_left _ (Nat.pow_pos (by decide))
    rw [hscale] at hle
    unfold leadingBit at hbound hle
    omega

/-- The comparisons may be made with a multiple of the ratio. -/
theorem of_scaled {m f : Nat} (hf : 0 < f) (hd : 0 < d) (hratio : n * f = m * d)
    (hlow : (2 * (x.significand * x.gap) - x.gapBelow) * f ≤ 2 * m)
    (hhigh : 2 * m ≤ (2 * (x.significand * x.gap) + x.gap) * f)
    (heven : 2 * m = (2 * (x.significand * x.gap) - x.gapBelow) * f ∨
      2 * m = (2 * (x.significand * x.gap) + x.gap) * f → x.significand % 2 = 0) :
    x.Near n d := by
  have hleft : (2 * n + x.gapBelow * d) * f = (2 * m + x.gapBelow * f) * d := by
    calc (2 * n + x.gapBelow * d) * f = 2 * (n * f) + x.gapBelow * f * d := by ring
      _ = (2 * m + x.gapBelow * f) * d := by rw [hratio]; ring
  have hright : 2 * n * f = 2 * m * d := by rw [Nat.mul_assoc, hratio, Nat.mul_assoc]
  rw [Nat.sub_mul] at hlow heven
  refine ⟨?_, ?_, ?_⟩
  · refine Nat.le_of_mul_le_mul_right ?_ hf
    rw [hleft, Nat.mul_right_comm]
    exact Nat.mul_le_mul_right d (by omega)
  · refine Nat.le_of_mul_le_mul_right ?_ hf
    rw [hright, Nat.mul_right_comm _ d f]
    exact Nat.mul_le_mul_right d hhigh
  · rintro (htie | htie)
    · have hmul := congrArg (· * f) htie
      simp only [hleft] at hmul
      rw [Nat.mul_right_comm] at hmul
      have hsame := Nat.eq_of_mul_eq_mul_right hd hmul
      exact heven (.inl (by omega))
    · have hmul := congrArg (· * f) htie
      simp only [hright] at hmul
      rw [Nat.mul_right_comm _ d] at hmul
      exact heven (.inr (Nat.eq_of_mul_eq_mul_right hd hmul))

end Near

/-- A ratio in the neighbourhood of a finite number is rounded to that number. -/
theorem ofRatio_of_near {x : Double} {n d : Nat} (hfinite : x.exponentField < 2047) (hd : 0 < d)
    (h : x.Near (n * one) d) (negative : Bool) :
    ofRatio negative n d = signed negative x.magnitude.toUInt64 := by
  by_cases hn : n = 0
  · have hlow := h.low
    rw [hn, Nat.zero_mul, Nat.mul_zero, Nat.zero_add] at hlow
    have hzero := magnitude_eq_zero ((Nat.le_of_mul_le_mul_right hlow hd).trans x.gapBelow_le)
    rw [ofRatio, if_pos hn, hzero]
    rfl
  · have hlt : x.magnitude < 2047 * leadingBit := by
      have hfraction := x.fractionField_lt
      have hmul : x.exponentField * leadingBit ≤ 2046 * leadingBit :=
        Nat.mul_le_mul_right _ (by omega)
      unfold magnitude
      omega
    obtain ⟨hhigh, hlow⟩ := scaleOf_spec hn (Nat.ne_of_gt hd)
    have hmagnitude : scaleOf n d * leadingBit +
        divideEven (n * one) (d * Nat.pow 2 (scaleOf n d)) = x.magnitude :=
      h.scaled hd hhigh hlow
    rw [ofRatio, if_neg hn]
    simp only [hmagnitude, if_pos hlt]

end Double

/-! ### Decimals -/

namespace Decimal

open Double (one)

theorem unit_pos : 0 < unit := by
  obtain ⟨e, -, -, hunit⟩ := Double.exists_units
  rw [hunit]
  exact Nat.pow_pos (by decide)

theorem le_of_contains {b : Neighbourhood} {n : Nat} (h : b.contains n = true) :
    b.low ≤ n ∧ n ≤ b.high ∧ (n = b.low ∨ n = b.high → b.closed = true) := by
  unfold Neighbourhood.contains at h
  split at h
  · next hclosed =>
    rw [Bool.and_eq_true, decide_eq_true_eq, decide_eq_true_eq] at h
    exact ⟨h.1, h.2, fun _ => hclosed⟩
  · rw [Bool.and_eq_true, decide_eq_true_eq, decide_eq_true_eq] at h
    refine ⟨by omega, by omega, fun htie => ?_⟩
    omega

/-- What the neighbourhood of a number contains is near to it, however the ratio is written. -/
theorem near_of_contains {x : Double} {m n d : Nat}
    (h : (neighbourhood x).contains (2 * m) = true) (hd : 0 < d)
    (hratio : n * one * unit = m * d) : x.Near (n * one) d := by
  obtain ⟨hlow, hhigh, heven⟩ := le_of_contains h
  have hclosed : (neighbourhood x).closed = decide (x.significand % 2 = 0) := rfl
  rw [hclosed, decide_eq_true_eq] at heven
  exact .of_scaled unit_pos hd hratio hlow hhigh heven

end Decimal

namespace Number

open Double (one)
open Decimal (unit neighbourhood)

/-- The powers of ten between which the digits of a number lie. -/
theorem toDigits_bounds {v : Nat} (hv : v ≠ 0) :
    10 ^ ((Nat.toDigits 10 v).length - 1) ≤ v ∧ v < 10 ^ (Nat.toDigits 10 v).length := by
  constructor
  · by_contra hlt
    have hpos : 0 < (Nat.toDigits 10 v).length - 1 := by
      by_contra hzero
      rw [Nat.eq_zero_of_not_pos hzero] at hlt
      omega
    have hle := (Nat.length_toDigits_le_iff (by decide) hpos).2 (Nat.lt_of_not_ge hlt)
    omega
  · exact (Nat.length_toDigits_le_iff (by decide) Nat.length_toDigits_pos).1 (Nat.le_refl _)

/-- The largest finite number is below the power of ten from which on literals are too large. -/
theorem lt_of_contains {x : Double} (hfinite : x.exponentField < 2047) {m : Nat}
    (h : (neighbourhood x).contains (2 * m) = true) :
    ∃ c, c = 309 ∧ m < 10 ^ c * (one * unit) := by
  obtain ⟨-, hhigh, -⟩ := Decimal.le_of_contains h
  have hhigh : 2 * m ≤ (2 * (x.significand * x.gap) + x.gap) * unit := hhigh
  have hgap : x.gap ≤ 2 ^ 971 * one := by
    obtain ⟨e, he, hone, -⟩ := Double.exists_units
    rw [Double.gap_eq, hone, ← Nat.pow_add]
    exact Nat.pow_le_pow_right (by decide) (by omega)
  have hpos : 0 < one * unit := by
    obtain ⟨e, -, hone, hunit⟩ := Double.exists_units
    rw [hone, hunit, ← Nat.mul_pow]
    exact Nat.pow_pos (by decide)
  obtain ⟨c, hc, hnumeric⟩ : ∃ c, c = 309 ∧ 2 * 2 ^ 53 * 2 ^ 971 < 2 * 10 ^ c :=
    ⟨309, rfl, by decide +kernel⟩
  have hunits : 2 * (x.significand * x.gap) + x.gap ≤ 2 * 2 ^ 53 * (2 ^ 971 * one) := by
    calc 2 * (x.significand * x.gap) + x.gap ≤ 2 * ((x.significand + 1) * x.gap) := by
          rw [Nat.add_mul]
          omega
      _ ≤ 2 * (2 ^ 53 * (2 ^ 971 * one)) := by
          have hlt := x.significand_lt
          exact Nat.mul_le_mul_left 2 (Nat.mul_le_mul hlt hgap)
      _ = 2 * 2 ^ 53 * (2 ^ 971 * one) := (Nat.mul_assoc _ _ _).symm
  have htwice : 2 * m < 2 * (10 ^ c * (one * unit)) := by
    calc 2 * m ≤ 2 * 2 ^ 53 * (2 ^ 971 * one) * unit :=
          hhigh.trans (Nat.mul_le_mul_right unit hunits)
      _ = 2 * 2 ^ 53 * 2 ^ 971 * (one * unit) := by
          rw [← Nat.mul_assoc (2 * 2 ^ 53), Nat.mul_assoc _ one]
      _ < 2 * 10 ^ c * (one * unit) := Nat.mul_lt_mul_of_pos_right hnumeric hpos
      _ = 2 * (10 ^ c * (one * unit)) := Nat.mul_assoc _ _ _
  exact ⟨c, hc, by omega⟩

/-- Only zero has numbers of less than half a unit in its neighbourhood. -/
theorem magnitude_eq_zero_of_contains {x : Double} {m : Nat}
    (h : (neighbourhood x).contains (2 * m) = true) (hm : 2 * m < unit) : x.magnitude = 0 := by
  obtain ⟨hlow, -, -⟩ := Decimal.le_of_contains h
  have hlow : (2 * (x.significand * x.gap) - x.gapBelow) * unit ≤ 2 * m := hlow
  have hnone : 2 * (x.significand * x.gap) - x.gapBelow < 1 := by
    refine Nat.lt_of_mul_lt_mul_right (a := unit) ?_
    rw [Nat.one_mul]
    exact Nat.lt_of_le_of_lt hlow hm
  have hgap := x.gapBelow_le
  exact Double.magnitude_eq_zero (by omega)

section
variable {x : Double} {m v s t : Nat} {e : Int}

/-- A decimal in the neighbourhood of a finite number is not too large to be read. -/
theorem add_le_of_contains (hfinite : x.exponentField < 2047)
    (h : (neighbourhood x).contains (2 * m) = true) (hv : v * 10 ^ s = m * 10 ^ t)
    (he : e + t + 1074 = s) {size : Nat} (hleast : 10 ^ (size - 1) ≤ v) :
    (size : Int) + e ≤ 310 := by
  obtain ⟨k, hk, hone, hunit⟩ := Double.exists_units
  obtain ⟨c, hc, hbound⟩ := lt_of_contains hfinite h
  have hlt : 10 ^ (size - 1 + s) < 10 ^ (c + k + t) := by
    calc 10 ^ (size - 1 + s) ≤ v * 10 ^ s := by
          rw [Nat.pow_add]
          exact Nat.mul_le_mul_right _ hleast
      _ = m * 10 ^ t := hv
      _ < 10 ^ c * 10 ^ k * 10 ^ t := by
          rw [hone, hunit, ← Nat.mul_pow] at hbound
          exact Nat.mul_lt_mul_of_pos_right hbound (Nat.pow_pos (by decide))
      _ = 10 ^ (c + k + t) := by rw [Nat.pow_add, Nat.pow_add 10 c]
  have hexp := (Nat.pow_lt_pow_iff_right (by decide)).1 hlt
  omega

/-- A decimal that is read as zero without more ado is less than half the least number. -/
theorem two_mul_lt_unit (hv : v * 10 ^ s = m * 10 ^ t) (he : e + t + 1074 = s) {size : Nat}
    (hmost : v < 10 ^ size) (hlow : (size : Int) + e < -330) : 2 * m < unit := by
  obtain ⟨c, hc, hnumeric⟩ : ∃ c, c = 744 ∧ 2 * 10 ^ c ≤ unit := ⟨744, rfl, by decide +kernel⟩
  have hlt : m * 10 ^ t < 10 ^ c * 10 ^ t := by
    calc m * 10 ^ t = v * 10 ^ s := hv.symm
      _ < 10 ^ size * 10 ^ s := Nat.mul_lt_mul_of_pos_right hmost (Nat.pow_pos (by decide))
      _ = 10 ^ (size + s) := (Nat.pow_add _ _ _).symm
      _ ≤ 10 ^ (c + t) := Nat.pow_le_pow_right (by decide) (by omega)
      _ = 10 ^ c * 10 ^ t := Nat.pow_add _ _ _
  have hm := Nat.lt_of_mul_lt_mul_right hlt
  omega

/-- A decimal in the neighbourhood of a finite number is read as that number. -/
theorem ofDecimal_of_contains (hfinite : x.exponentField < 2047)
    (h : (neighbourhood x).contains (2 * m) = true) (hv : v * 10 ^ s = m * 10 ^ t)
    (he : e + t + 1074 = s) (negative : Bool) :
    ofDecimal negative v e = .signed negative x.magnitude.toUInt64 := by
  obtain ⟨k, hk, hone, hunit⟩ := Double.exists_units
  have hten : one * unit = 10 ^ k := by rw [hone, hunit, ← Nat.mul_pow]
  have hpow (n : Nat) : 0 < 10 ^ n := Nat.pow_pos (by decide)
  unfold ofDecimal
  by_cases hzero : v = 0
  · rw [hzero, Nat.zero_mul] at hv
    have hm : m = 0 := by
      rcases Nat.mul_eq_zero.1 hv.symm with hm | hm
      · exact hm
      · exact absurd hm (Nat.ne_of_gt (hpow t))
    rw [if_pos hzero, magnitude_eq_zero_of_contains h (by rw [hm]; exact Decimal.unit_pos)]
    rfl
  · obtain ⟨hleast, hmost⟩ := toDigits_bounds hzero
    generalize (Nat.toDigits 10 v).length = size at hleast hmost
    have hhigh := add_le_of_contains hfinite h hv he hleast
    dsimp only
    rw [if_neg hzero, if_neg (by omega)]
    by_cases hlow : (size : Int) + e < -330
    · rw [if_pos hlow, magnitude_eq_zero_of_contains h (two_mul_lt_unit hv he hmost hlow)]
      rfl
    · rw [if_neg hlow]
      split
      · next hnonneg =>
        have hratio : v * Nat.pow 10 e.toNat * one * unit = m * 1 := by
          have hexp : e.toNat + k + t = s := by omega
          refine Nat.eq_of_mul_eq_mul_right (hpow t) ?_
          rw [Nat.mul_assoc _ one, hten, Nat.mul_one, ← hv, ← hexp, Nat.pow_add, Nat.pow_add,
            Nat.pow_eq]
          ring
        exact Double.ofRatio_of_near hfinite (by decide)
          (Decimal.near_of_contains h (by decide) hratio) negative
      · next hneg =>
        have hratio : v * one * unit = m * Nat.pow 10 (-e).toNat := by
          have hexp : k + t = s + (-e).toNat := by omega
          refine Nat.eq_of_mul_eq_mul_right (hpow t) ?_
          rw [Nat.mul_assoc v, hten, Nat.mul_assoc v, ← Nat.pow_add, hexp, Nat.pow_add,
            ← Nat.mul_assoc, hv, Nat.pow_eq]
          ring
        exact Double.ofRatio_of_near hfinite (hpow _)
          (Decimal.near_of_contains h (hpow _) hratio) negative

end

end Number
end StackLisp
