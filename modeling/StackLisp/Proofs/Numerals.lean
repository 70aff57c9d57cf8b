import StackLisp.Proofs.Rescanning
import StackLisp.Proofs.Rounding

/-! Numbers as text: what is written for a number is one token, of the same kind of number, and is
read as that number. -/
namespace StackLisp

/-! ### Digits -/

namespace Decimal

/-- The number that digits spell. -/
def whole (ds : List Nat) : Nat := ds.foldl (fun n d => 10 * n + d) 0

theorem foldl_digits (n : Nat) (ds : List Nat) :
    ds.foldl (fun n d => 10 * n + d) n = n * 10 ^ ds.length + whole ds := by
  induction ds generalizing n with
  | nil => simp [whole]
  | cons d ds ih =>
    rw [whole, List.foldl_cons, List.foldl_cons, ih, ih (10 * 0 + d), List.length_cons,
      Nat.pow_succ]
    ring

theorem whole_append (ds es : List Nat) :
    whole (ds ++ es) = whole ds * 10 ^ es.length + whole es := by
  rw [whole, List.foldl_append, foldl_digits]
  rfl

theorem whole_replicate_zero (n : Nat) : whole (List.replicate n 0) = 0 := by
  induction n with
  | zero => rfl
  | succ n ih =>
    rw [List.replicate_succ, ← List.singleton_append, whole_append, ih]
    simp [whole]

/-- All digits are below ten. -/
def Digits (ds : List Nat) : Prop := ∀ d ∈ ds, d < 10

theorem Digits.append {ds es : List Nat} (hds : Digits ds) (hes : Digits es) :
    Digits (ds ++ es) := by
  intro d hd
  rcases List.mem_append.1 hd with hd | hd
  · exact hds d hd
  · exact hes d hd

theorem digits_replicate_zero (n : Nat) : Digits (List.replicate n 0) := by
  intro d hd
  rw [List.eq_of_mem_replicate hd]
  decide

theorem digit_of_mem_toDigits {n : Nat} {c : Char} (h : c ∈ Nat.toDigits 10 n) :
    48 ≤ c.toNat ∧ c.toNat < 58 := by
  have hdigit := Nat.isDigit_of_mem_toDigits (by decide) (by decide) h
  simp only [Char.isDigit, Bool.and_eq_true, decide_eq_true_eq, ge_iff_le,
    UInt32.le_iff_toNat_le] at hdigit
  exact ⟨hdigit.1, Nat.lt_succ_of_le hdigit.2⟩

theorem digits_digitsOf (n : Nat) : Digits (digitsOf n) := by
  intro d hd
  obtain ⟨c, hc, rfl⟩ := List.mem_map.1 hd
  have hdigit := digit_of_mem_toDigits hc
  omega

theorem whole_digitsOf (n : Nat) : whole (digitsOf n) = n := by
  have h := Nat.ofDigitChars_toDigits (b := 10) (n := n) (by decide) (by decide)
  rw [whole, digitsOf, List.foldl_map]
  exact h

theorem digitsOf_ne_nil (n : Nat) : digitsOf n ≠ [] := by
  rw [digitsOf, Ne, List.map_eq_nil_iff]
  exact Nat.toDigits_ne_nil

theorem length_digitsOf (n : Nat) : (digitsOf n).length = (Nat.toDigits 10 n).length :=
  List.length_map _

/-- Decimal text is made of digits. -/
theorem decimal_eq (n : Nat) : Text.decimal n = digitBytes (digitsOf n) := by
  rw [Text.decimal, digitBytes, digitsOf, List.map_map]
  refine List.map_congr_left fun c hc => ?_
  have hdigit := digit_of_mem_toDigits hc
  rw [Function.comp_apply, Nat.add_sub_cancel' hdigit.1]

theorem dropTrailingZeros_spec (ds : List Nat) :
    ∃ z, ds = dropTrailingZeros ds ++ List.replicate z 0 := by
  obtain ⟨z, hz⟩ : ∃ z, ds.reverse = List.replicate z 0 ++ ds.reverse.dropWhile (· = 0) := by
    generalize ds.reverse = es
    induction es with
    | nil => exact ⟨0, rfl⟩
    | cons e es ih =>
      obtain ⟨z, hz⟩ := ih
      by_cases he : e = 0
      · refine ⟨z + 1, ?_⟩
        rw [List.dropWhile_cons_of_pos (by simpa using he), List.replicate_succ, List.cons_append,
          ← hz, he]
      · exact ⟨0, by rw [List.dropWhile_cons_of_neg (by simpa using he)]; rfl⟩
  refine ⟨z, ?_⟩
  rw [dropTrailingZeros, ← List.reverse_inj, List.reverse_append, List.reverse_reverse,
    List.reverse_replicate]
  exact hz

/-! ### The shortest decimal -/

/-- The decimal stands for `m` parts of 10^-1074. -/
structure Denotes (d : Decimal) (m : Nat) : Prop where
  digits : Digits d.digits
  value : ∃ t : Nat, m = whole d.digits * 10 ^ t ∧ d.point = d.digits.length + t - 1074
  size : d.digits ≠ [] → 10 ^ (d.point + 1073).toNat ≤ m

theorem denotes_ofScaled (n places : Nat) :
    (ofScaled n ((places : Int) - 1074)).Denotes (n * 10 ^ places) := by
  obtain ⟨z, hz⟩ := dropTrailingZeros_spec (digitsOf n)
  have hn := whole_digitsOf n
  rw [hz, whole_append, whole_replicate_zero, List.length_replicate, Nat.add_zero] at hn
  have hlen : (digitsOf n).length = (dropTrailingZeros (digitsOf n)).length + z := by
    conv_lhs => rw [hz]
    rw [List.length_append, List.length_replicate]
  refine ⟨?_, ⟨z + places, ?_, ?_⟩, ?_⟩
  · intro d hd
    refine digits_digitsOf n d ?_
    rw [hz]
    exact List.mem_append_left _ hd
  · rw [ofScaled, Nat.pow_add, ← Nat.mul_assoc, hn]
  · simp only [ofScaled]
    omega
  · intro hne
    have hzero : n ≠ 0 := by
      rintro rfl
      exact hne rfl
    have hleast := (Number.toDigits_bounds hzero).1
    rw [← length_digitsOf] at hleast
    have hpos : 0 < (digitsOf n).length := List.length_pos_iff.2 (digitsOf_ne_nil n)
    have hexp : ((ofScaled n ((places : Int) - 1074)).point + 1073).toNat =
        (digitsOf n).length - 1 + places := by
      simp only [ofScaled]
      omega
    rw [hexp, Nat.pow_add]
    exact Nat.mul_le_mul_right _ hleast

theorem contains_of_onGrid {b : Neighbourhood} {n grid d : Nat} (h : onGrid b n grid = some d) :
    b.contains (2 * (d * grid)) = true := by
  rw [← Nat.mul_assoc]
  unfold onGrid at h
  dsimp only at h
  split at h
  · next hboth =>
    rw [Bool.and_eq_true] at hboth
    cases h
    unfold Double.divideEven
    dsimp only
    split
    · exact hboth.2
    · exact hboth.1
  · split at h
    · next hdown =>
      cases h
      exact hdown
    · split at h
      · next hup =>
        cases h
        exact hup
      · cases h

theorem denotes_of_firstOnGrid {b : Neighbourhood} {n places steps : Nat} {d : Decimal}
    (h : firstOnGrid b n places steps = some d) :
    ∃ m, b.contains (2 * m) = true ∧ d.Denotes m := by
  induction steps generalizing places with
  | zero => cases h
  | succ steps ih =>
    rw [firstOnGrid] at h
    split at h
    · next e he =>
      cases h
      exact ⟨_, contains_of_onGrid he, denotes_ofScaled e places⟩
    · exact ih h

/-- The number itself lies in its neighbourhood, and inside it if it has an odd significand. -/
theorem contains_self (x : Double) :
    (neighbourhood x).contains (2 * (x.significand * x.gap * unit)) = true := by
  have hlow : (neighbourhood x).low = (2 * (x.significand * x.gap) - x.gapBelow) * unit := rfl
  have hhigh : (neighbourhood x).high = (2 * (x.significand * x.gap) + x.gap) * unit := rfl
  have hclosed : (neighbourhood x).closed = decide (x.significand % 2 = 0) := rfl
  have hself : 2 * (x.significand * x.gap * unit) = 2 * (x.significand * x.gap) * unit :=
    (Nat.mul_assoc _ _ _).symm
  have hgap := x.gap_pos
  rw [Neighbourhood.contains, hlow, hhigh, hclosed, hself]
  split
  · rw [Bool.and_eq_true, decide_eq_true_eq, decide_eq_true_eq]
    exact ⟨Nat.mul_le_mul_right _ (Nat.sub_le _ _), Nat.mul_le_mul_right _ (Nat.le_add_right _ _)⟩
  · next hodd =>
    rw [decide_eq_true_eq] at hodd
    have hpos : 0 < x.significand * x.gap := Nat.mul_pos (by omega) hgap
    have hbelow : 0 < x.gapBelow := by
      unfold Double.gapBelow
      split
      · next hleast =>
        -- the least significand of its scale is even
        rw [Double.significand, hleast.1, if_neg (by omega)] at hodd
        exact absurd rfl hodd
      · exact hgap
    rw [Bool.and_eq_true, decide_eq_true_eq, decide_eq_true_eq]
    exact ⟨Nat.mul_lt_mul_of_pos_right (by omega) unit_pos,
      Nat.mul_lt_mul_of_pos_right (by omega) unit_pos⟩

theorem shortest_spec (x : Double) :
    ∃ m, (neighbourhood x).contains (2 * m) = true ∧ (shortest x).Denotes m := by
  unfold shortest
  dsimp only
  cases h : firstOnGrid (neighbourhood x) (x.significand * x.gap * unit)
      ((digitsOf (x.significand * x.gap * unit)).length - 1) 17 with
  | some d => exact denotes_of_firstOnGrid h
  | none =>
    refine ⟨_, contains_self x, ?_⟩
    simpa using denotes_ofScaled (x.significand * x.gap * unit) 0

/-! ### Texts of digits -/

theorem digitBytes_append (ds es : List Nat) :
    digitBytes (ds ++ es) = digitBytes ds ++ digitBytes es :=
  List.map_append

theorem digitBytes_replicate_zero (n : Nat) :
    digitBytes (List.replicate n 0) = Text.repeated n 48 :=
  List.map_replicate

end Decimal

namespace Number

open Decimal (Digits digitBytes whole)
open Text (lit)

/-- The byte of a digit below ten. -/
theorem digitByte_spec {d : Nat} (h : d < 10) :
    Text.isDigit (48 + d).toUInt8 = true ∧ (48 + d).toUInt8.toNat - 48 = d ∧
      (48 + d).toUInt8 ≠ 95 ∧ (48 + d).toUInt8 ≠ 46 := by
  have hall : ∀ d < 10, Text.isDigit (48 + d).toUInt8 = true ∧ (48 + d).toUInt8.toNat - 48 = d ∧
      (48 + d).toUInt8 ≠ 95 ∧ (48 + d).toUInt8 ≠ 46 := by decide
  exact hall d h

theorem readWord_digits {ds : List Nat} (hds : Digits ds) {n : Nat}
    (h : ds.foldl (fun n d => 10 * n + d) n < wordSize) :
    readWord n (digitBytes ds) = .ok (ds.foldl (fun n d => 10 * n + d) n) := by
  induction ds generalizing n with
  | nil => rfl
  | cons d ds ih =>
    obtain ⟨hd, hrest⟩ := List.forall_mem_cons.1 hds
    obtain ⟨hdigit, hvalue, -, -⟩ := digitByte_spec hd
    have hlt : 10 * n + d < wordSize := by
      rw [List.foldl_cons, Decimal.foldl_digits] at h
      have hpow : (10 * n + d) * 1 ≤ (10 * n + d) * 10 ^ ds.length :=
        Nat.mul_le_mul_left _ (Nat.pow_pos (by decide))
      omega
    rw [digitBytes, List.map_cons, readWord, if_pos hdigit, hvalue]
    dsimp only
    rw [if_pos hlt]
    exact ih hrest h

/-- No sign is taken from a text that starts with a digit. -/
theorem splitSign_of_isDigit {b : UInt8} {rest : Bytes} (h : Text.isDigit b = true) :
    splitSign (b :: rest) = (false, b :: rest) := by
  unfold splitSign
  split
  · next heq =>
    cases heq
    exact absurd h (by decide)
  · next heq =>
    cases heq
    exact absurd h (by decide)
  · rfl

theorem decimal_cons (n : Nat) :
    ∃ b rest, Text.decimal n = b :: rest ∧ Text.isDigit b = true := by
  have hdigits := Decimal.digits_digitsOf n
  rw [Decimal.decimal_eq]
  cases h : Decimal.digitsOf n with
  | nil => exact absurd h (Decimal.digitsOf_ne_nil n)
  | cons d ds =>
    rw [h] at hdigits
    exact ⟨_, _, rfl, (digitByte_spec (hdigits d (.head _))).1⟩

theorem readWord_decimal {n : Nat} (h : n < wordSize) : readWord 0 (Text.decimal n) = .ok n := by
  have hwhole : (Decimal.digitsOf n).foldl (fun n d => 10 * n + d) 0 = n := Decimal.whole_digitsOf n
  rw [Decimal.decimal_eq, readWord_digits (Decimal.digits_digitsOf n) (by rwa [hwhole]), hwhole]

theorem readInt_of_split {text digits : Bytes} {negative : Bool} {i : Int64}
    (hsplit : splitSign text = (negative, digits)) (hne : digits ≠ [])
    (hword : readWord 0 digits = .ok i.toInt.natAbs)
    (hsign : (if negative then -(i.toInt.natAbs : Int) else i.toInt.natAbs) = i.toInt) :
    readInt text = .ok i := by
  have hrange : minInt ≤ i.toInt ∧ i.toInt ≤ maxInt := by
    have hlt := i.toInt_lt
    refine ⟨i.le_toInt, ?_⟩
    unfold maxInt
    omega
  unfold readInt
  rw [hsplit]
  simp only [if_neg hne, hword, bind, Except.bind, hsign, if_pos hrange, Int64.ofInt_toInt]
  rfl

/-- An integer that is written is read as that integer. -/
theorem readInt_decimalInt (i : Int64) : readInt (Text.decimalInt i.toInt) = .ok i := by
  obtain ⟨b, rest, hdecimal, hb⟩ := decimal_cons i.toInt.natAbs
  have hword : readWord 0 (b :: rest) = .ok i.toInt.natAbs := by
    rw [← hdecimal]
    refine readWord_decimal ?_
    have hlow := i.le_toInt
    have hhigh := i.toInt_lt
    unfold wordSize
    omega
  unfold Text.decimalInt
  split
  · next hneg =>
    rw [hdecimal]
    refine readInt_of_split rfl (List.cons_ne_nil b rest) hword ?_
    rw [if_pos rfl]
    omega
  · next hneg =>
    rw [hdecimal]
    refine readInt_of_split (splitSign_of_isDigit hb) (List.cons_ne_nil b rest) hword ?_
    rw [if_neg Bool.false_ne_true]
    omega

/-! ### Reading of decimal fractions -/

theorem readMantissa_digits {ds : List Nat} (hds : Digits ds) (m : Mantissa) (rest : Bytes) :
    readMantissa 10 m (digitBytes ds ++ rest) =
      readMantissa 10 (ds.foldl (fun m d => m.push 10 d) m) rest := by
  induction ds generalizing m with
  | nil => rfl
  | cons d ds ih =>
    obtain ⟨hd, hrest⟩ := List.forall_mem_cons.1 hds
    obtain ⟨hdigit, hvalue, hunderscore, hpoint⟩ := digitByte_spec hd
    rw [digitBytes, List.map_cons, List.cons_append, readMantissa, if_neg hunderscore,
      if_neg fun h => hpoint h.1, if_pos hdigit, hvalue]
    exact ih hrest _

theorem foldl_push (ds : List Nat) {m : Mantissa} (hm : m.point = false → m.places = 0) :
    ds.foldl (fun m d => m.push 10 d) m =
      ⟨ds.foldl (fun n d => 10 * n + d) m.value, if m.point then m.places + ds.length else 0,
        m.point, m.any || !ds.isEmpty⟩ := by
  induction ds generalizing m with
  | nil =>
    obtain ⟨value, places, point, any⟩ := m
    cases point with
    | false =>
      obtain rfl : places = 0 := hm rfl
      simp
    | true => simp
  | cons d ds ih =>
    have hpush : (m.push 10 d).point = false → (m.push 10 d).places = 0 := by
      intro hp
      exact if_neg (by rw [show m.point = false from hp]; decide)
    rw [List.foldl_cons, ih hpush]
    cases hp : m.point with
    | false => simp [Mantissa.push, hp]
    | true =>
      simp [Mantissa.push, hp]
      omega

theorem readExponent_digits {ds : List Nat} (hds : Digits ds) {n : Nat}
    (h : ds.foldl (fun n d => 10 * n + d) n < 10000) :
    readExponent n (digitBytes ds) = some (ds.foldl (fun n d => 10 * n + d) n) := by
  induction ds generalizing n with
  | nil => rfl
  | cons d ds ih =>
    obtain ⟨hd, hrest⟩ := List.forall_mem_cons.1 hds
    obtain ⟨hdigit, hvalue, hunderscore, -⟩ := digitByte_spec hd
    have hlt : n < 10000 := by
      rw [List.foldl_cons, Decimal.foldl_digits] at h
      have hpow : (10 * n + d) * 1 ≤ (10 * n + d) * 10 ^ ds.length :=
        Nat.mul_le_mul_left _ (Nat.pow_pos (by decide))
      omega
    rw [digitBytes, List.map_cons, readExponent, if_neg hunderscore, if_pos hdigit, if_pos hlt,
      hvalue]
    exact ih hrest h

/-- A mark, a sign and at least two digits. -/
def exponentText (e : Int) : Bytes :=
  (if e < 0 then lit "e-" else lit "e+") ++
    (if (Text.decimal e.natAbs).length < 2 then lit "0" ++ Text.decimal e.natAbs
      else Text.decimal e.natAbs)

theorem exponentText_eq (e : Int) : ∃ ds, Digits ds ∧ ds ≠ [] ∧ whole ds = e.natAbs ∧
    exponentText e = 101 :: (if e < 0 then 45 else 43) :: digitBytes ds := by
  have hdigits := Decimal.digits_digitsOf e.natAbs
  have hsign (tail : Bytes) : (if e < 0 then lit "e-" else lit "e+") ++ tail =
      101 :: (if e < 0 then 45 else 43) :: tail := by
    split <;> rfl
  rw [exponentText, hsign, Decimal.decimal_eq]
  by_cases hlen : (digitBytes (Decimal.digitsOf e.natAbs)).length < 2
  · refine ⟨0 :: Decimal.digitsOf e.natAbs, ?_, List.cons_ne_nil _ _, ?_, by rw [if_pos hlen]; rfl⟩
    · exact List.forall_mem_cons.2 ⟨by decide, hdigits⟩
    · rw [← List.singleton_append, Decimal.whole_append, Decimal.whole_digitsOf]
      simp [whole]
  · exact ⟨_, hdigits, Decimal.digitsOf_ne_nil _, Decimal.whole_digitsOf _, by rw [if_neg hlen]⟩

theorem exponentAfter_exponentText {e : Int} (h : e.natAbs < 10000) :
    exponentAfter 101 (exponentText e) = some (some e) := by
  obtain ⟨ds, hds, hne, hwhole, htext⟩ := exponentText_eq e
  have hread : readExponent 0 (digitBytes ds) = some e.natAbs := by
    rw [readExponent_digits hds]
    · exact congrArg some hwhole
    · exact hwhole.trans_lt h
  have hsplit : splitSign ((if e < 0 then 45 else 43) :: digitBytes ds) =
      (decide (e < 0), digitBytes ds) := by
    by_cases hneg : e < 0
    · rw [if_pos hneg, decide_eq_true hneg]
      rfl
    · rw [if_neg hneg, decide_eq_false hneg]
      rfl
  have hvalue : (if e < 0 then -(e.natAbs : Int) else e.natAbs) = e := by
    split <;> omega
  cases ds with
  | nil => exact absurd rfl hne
  | cons d ds =>
    have hfirst := (digitByte_spec (hds d (.head _))).1
    rw [htext, exponentAfter, if_pos (by decide), hsplit]
    simp only [digitBytes, List.map_cons] at hread ⊢
    rw [if_pos hfirst, hread]
    simp only [decide_eq_true_eq]
    exact congrArg (fun v => some (some v)) hvalue

/-! ### Numerals -/

/-- A decimal fraction as it is written. -/
structure Numeral where
  front : List Nat
  /-- The digits behind the point, if there is one. -/
  behind : Option (List Nat)
  exponent : Option Int

namespace Numeral

def text (n : Numeral) : Bytes :=
  digitBytes n.front ++
    (n.behind.elim [] (fun ds => 46 :: digitBytes ds) ++ n.exponent.elim [] exponentText)

/-- The numeral has the form of a float: digits in front, and a point or an exponent. -/
structure Regular (n : Numeral) : Prop where
  front : Digits n.front
  front_ne_nil : n.front ≠ []
  behind : Digits (n.behind.getD [])
  exponent : (n.exponent.getD 0).natAbs < 10000
  isFloat : n.behind.isSome ∨ n.exponent.isSome

/-- The mantissa ends where the exponent starts. -/
theorem readMantissa_exponent (m : Mantissa) (o : Option Int) :
    readMantissa 10 m (o.elim [] exponentText) = (m, o.elim [] exponentText) := by
  cases o with
  | none => rfl
  | some e =>
    obtain ⟨ds, -, -, -, htext⟩ := exponentText_eq e
    rw [Option.elim_some, htext, readMantissa, if_neg (by decide),
      if_neg fun hpoint => absurd hpoint.1 (by decide), if_neg (by decide)]
    rfl

theorem readMantissa_text {n : Numeral} (h : n.Regular) :
    readMantissa 10 {} n.text =
      (⟨whole (n.front ++ n.behind.getD []), (n.behind.getD []).length, n.behind.isSome, true⟩,
        n.exponent.elim [] exponentText) := by
  have hfront : n.front.isEmpty = false := by simpa using h.front_ne_nil
  rw [text, readMantissa_digits h.front, foldl_push n.front (fun _ => rfl), hfront]
  cases hb : n.behind with
  | none =>
    rw [Option.elim_none, List.nil_append, readMantissa_exponent, Option.getD_none,
      List.append_nil]
    rfl
  | some ds =>
    have hdigits : Digits ds := by simpa [hb] using h.behind
    rw [Option.elim_some, List.cons_append, readMantissa, if_neg (by decide),
      if_pos ⟨rfl, Bool.false_ne_true⟩, readMantissa_digits hdigits, foldl_push ds (fun hp => absurd hp.symm Bool.false_ne_true),
      readMantissa_exponent, Option.getD_some, whole, List.foldl_append]
    simp

theorem readDecimal_text {n : Numeral} (h : n.Regular) (negative : Bool) :
    readDecimal negative n.text = some (ofDecimal negative (whole (n.front ++ n.behind.getD []))
      (n.exponent.getD 0 - (n.behind.getD []).length)) := by
  have hexponent : exponentAfter 101 (n.exponent.elim [] exponentText) = some n.exponent := by
    have hbound := h.exponent
    cases he : n.exponent with
    | none => rfl
    | some e =>
      rw [he] at hbound
      exact exponentAfter_exponentText hbound
  simp only [readDecimal, readMantissa_text h, hexponent]

end Numeral

/-- The bytes of which numbers are written. -/
def isNumeralByte (b : UInt8) : Bool := Text.isDigit b || [43, 45, 46, 101].contains b

theorem isNumeralByte_spec {b : UInt8} (h : isNumeralByte b = true) :
    b < 0x80 ∧ Token.isDelimiter (Char.ofNat b.toNat) = false ∧ Char.ofNat b.toNat ≠ '#' ∧
      b ≠ 95 ∧ lowerAscii b ∉ [105, 110, 120] := by
  have hall : ∀ n < 256, isNumeralByte (UInt8.ofNat n) = true → UInt8.ofNat n < 0x80 ∧
      Token.isDelimiter (Char.ofNat (UInt8.ofNat n).toNat) = false ∧
      Char.ofNat (UInt8.ofNat n).toNat ≠ '#' ∧ UInt8.ofNat n ≠ 95 ∧
      lowerAscii (UInt8.ofNat n) ∉ [105, 110, 120] := by decide +kernel
  have hb := hall b.toNat b.toNat_lt
  rw [UInt8.ofNat_toNat] at hb
  exact hb h

theorem isNumeralByte_of_mem_digitBytes {ds : List Nat} (hds : Digits ds) :
    ∀ b ∈ digitBytes ds, isNumeralByte b = true := by
  intro b hb
  obtain ⟨d, hd, rfl⟩ := List.mem_map.1 hb
  rw [isNumeralByte, (digitByte_spec (hds d hd)).1]
  rfl

namespace Numeral

theorem isNumeralByte_text {n : Numeral} (h : n.Regular) :
    ∀ b ∈ n.text, isNumeralByte b = true := by
  intro b hb
  rcases List.mem_append.1 hb with hb | hb
  · exact isNumeralByte_of_mem_digitBytes h.front b hb
  · rcases List.mem_append.1 hb with hb | hb
    · have hdigits := h.behind
      cases hbehind : n.behind with
      | none =>
        rw [hbehind] at hb
        cases hb
      | some ds =>
        rw [hbehind] at hb hdigits
        rcases List.mem_cons.1 hb with rfl | hb
        · decide
        · exact isNumeralByte_of_mem_digitBytes hdigits b hb
    · cases hexponent : n.exponent with
      | none =>
        rw [hexponent] at hb
        cases hb
      | some e =>
        obtain ⟨ds, hds, -, -, htext⟩ := exponentText_eq e
        rw [hexponent, Option.elim_some, htext] at hb
        rcases List.mem_cons.1 hb with rfl | hb
        · decide
        · rcases List.mem_cons.1 hb with rfl | hb
          · split <;> decide
          · exact isNumeralByte_of_mem_digitBytes hds b hb

theorem text_cons {n : Numeral} (h : n.Regular) :
    ∃ b rest, n.text = b :: rest ∧ Text.isDigit b = true := by
  have hfront := h.front
  have hne := h.front_ne_nil
  unfold text
  cases hf : n.front with
  | nil => exact absurd hf hne
  | cons d ds =>
    rw [hf] at hfront
    exact ⟨_, _, rfl, (digitByte_spec (hfront d (.head _))).1⟩

/-- A point or the mark of an exponent tells the text from that of an integer. -/
theorem mark_mem_text {n : Numeral} (h : n.Regular) : 46 ∈ n.text ∨ 101 ∈ n.text := by
  unfold text
  rcases h.isFloat with hbehind | hexponent
  · obtain ⟨ds, hds⟩ := Option.isSome_iff_exists.1 hbehind
    simp [hds]
  · obtain ⟨e, he⟩ := Option.isSome_iff_exists.1 hexponent
    obtain ⟨ds, -, -, -, htext⟩ := exponentText_eq e
    simp [he, htext]

end Numeral

/-- Digits with a point or an exponent are read as a decimal fraction, not as a word and not in
another base. -/
theorem readFloat_decimal {body : Bytes} {negative : Bool} {x : Double}
    (hfirst : ∃ b rest, body = b :: rest ∧ Text.isDigit b = true)
    (hbytes : ∀ b ∈ body, isNumeralByte b = true) (hread : readDecimal negative body = some x)
    (hfinite : x.isInfinite = false) :
    readFloat (if negative then 45 :: body else body) = .ok x := by
  obtain ⟨b, rest, rfl, hb⟩ := hfirst
  have hsplit : splitSign (if negative then 45 :: b :: rest else b :: rest) =
      (negative, b :: rest) := by
    cases negative with
    | false => exact splitSign_of_isDigit hb
    | true => rfl
  have hall : ∀ c ∈ if negative then 45 :: b :: rest else b :: rest, isNumeralByte c = true := by
    cases negative with
    | false => exact hbytes
    | true => exact List.forall_mem_cons.2 ⟨by decide, hbytes⟩
  generalize (if negative then 45 :: b :: rest else b :: rest) = text at hsplit hall ⊢
  -- no word starts with a byte of a number
  have hword {bs tail : Bytes} {c : UInt8} (hbs : ∀ b ∈ bs, isNumeralByte b = true)
      (hc : c ∈ [105, 110, 120]) : bs.map lowerAscii ≠ c :: tail := by
    intro heq
    obtain ⟨b, _, rfl, rfl, -⟩ := List.map_eq_cons_iff.1 heq
    exact (isNumeralByte_spec (hbs b (.head _))).2.2.2.2 hc
  have hnone : readWordFloat text = none := by
    unfold readWordFloat
    rw [hsplit]
    dsimp only
    rw [if_neg, if_neg]
    · exact hword hall (by decide)
    · rintro (heq | heq)
      · exact hword hbytes (by decide) heq
      · exact hword hbytes (by decide) heq
  have hdigits : readDigits negative (b :: rest) = some x := by
    unfold readDigits
    split
    · next second third tail heq =>
      cases heq
      have hsecond := (isNumeralByte_spec (hbytes second (.tail _ (.head _)))).2.2.2.2
      rw [if_neg fun heq => hsecond (by rw [heq]; decide), hread]
    · exact hread
  have hunderscore : 95 ∉ text := by
    intro hmem
    exact (isNumeralByte_spec (hall 95 hmem)).2.2.2.1 rfl
  unfold readFloat
  rw [hnone, hsplit]
  simp [hdigits, hunderscore, hfinite]

end Number

/-! ### Floats as they are written -/

namespace Decimal

open Number (Numeral exponentText)
open Text (lit)

/-- The text of a decimal, with a point if it would be taken for an integer. -/
def pointed (text : Bytes) : Bytes :=
  if text.any fun b => b = 46 || b = 101 then text else text ++ lit ".0"

/-- The numeral stands for the same number as the decimal. -/
def Writes (d : Decimal) (n : Numeral) : Prop :=
  ∃ t : Nat, whole (n.front ++ n.behind.getD []) = whole d.digits * 10 ^ t ∧
    n.exponent.getD 0 - (n.behind.getD []).length + t = d.point - d.digits.length

theorem pointed_text {n : Numeral} (h : n.Regular) : pointed n.text = n.text := by
  refine if_pos ?_
  rw [List.any_eq_true]
  rcases n.mark_mem_text h with hmem | hmem
  · exact ⟨46, hmem, by decide⟩
  · exact ⟨101, hmem, by decide⟩

/-- A text of digits gets a point and a zero. -/
theorem pointed_digitBytes {ds : List Nat} (h : Digits ds) :
    pointed (digitBytes ds) = digitBytes ds ++ lit ".0" := by
  refine if_neg ?_
  rw [List.any_eq_true]
  rintro ⟨b, hb, hmark⟩
  obtain ⟨d, hd, rfl⟩ := List.mem_map.1 hb
  have hall : ∀ d < 10, ((48 + d).toUInt8 = 46 || (48 + d).toUInt8 = 101) = false := by decide
  rw [hall d (h d hd)] at hmark
  cases hmark

theorem scientific_writes {d : Decimal} (hdigits : Digits d.digits) (hne : d.digits ≠ [])
    (hpoint : (d.point - 1).natAbs < 10000) :
    ∃ n : Numeral, n.Regular ∧ d.scientific = n.text ∧ d.Writes n := by
  unfold scientific
  obtain ⟨c, cs, hcs⟩ := List.exists_cons_of_ne_nil hne
  rw [hcs] at hdigits
  obtain ⟨hc, hrest⟩ := List.forall_mem_cons.1 hdigits
  have hfront : Digits [c] := by simpa [Digits] using hc
  cases cs with
  | nil =>
    refine ⟨⟨[c], none, some (d.point - 1)⟩,
      ⟨hfront, List.cons_ne_nil _ _, hrest, hpoint, .inr rfl⟩, ?_, 0, ?_, ?_⟩
    · simp [hcs, Numeral.text, exponentText]
    · simp [hcs]
    · simp [hcs]
  | cons c' cs =>
    refine ⟨⟨[c], some (c' :: cs), some (d.point - 1)⟩,
      ⟨hfront, List.cons_ne_nil _ _, hrest, hpoint, .inr rfl⟩, ?_, 0, ?_, ?_⟩
    · simp [hcs, Numeral.text, exponentText, show lit "." = [46] from by decide]
    · simp [hcs]
    · simp [hcs]
      omega

/-- Zeros stand between the point and the digits. -/
theorem positional_writes_before {d : Decimal} (hdigits : Digits d.digits) (hpoint : d.point ≤ 0) :
    ∃ n : Numeral, n.Regular ∧ pointed d.positional = n.text ∧ d.Writes n := by
  have hbehind : Digits (List.replicate (-d.point).toNat 0 ++ d.digits) :=
    (digits_replicate_zero _).append hdigits
  obtain ⟨n, hn⟩ : ∃ n : Numeral,
      n = ⟨[0], some (List.replicate (-d.point).toNat 0 ++ d.digits), none⟩ := ⟨_, rfl⟩
  have hregular : n.Regular := by
    subst hn
    exact ⟨digits_replicate_zero 1, List.cons_ne_nil _ _, hbehind, Nat.succ_pos _, .inl rfl⟩
  have htext : d.positional = n.text := by
    subst hn
    rw [positional, if_pos hpoint]
    simp [Numeral.text, digitBytes_append, digitBytes_replicate_zero,
      show lit "0." = [48, 46] from by decide]
    rfl
  refine ⟨n, hregular, ?_, 0, ?_, ?_⟩
  · rw [htext, pointed_text hregular]
  · subst hn
    rw [Option.getD_some, whole_append, whole_append, whole_replicate_zero]
    simp [whole]
  · subst hn
    simp
    omega

/-- The point stands among the digits. -/
theorem positional_writes_among {d : Decimal} {w : Nat} (hdigits : Digits d.digits)
    (hpoint : d.point = w) (hw : 0 < w) (hlen : w < d.digits.length) :
    ∃ n : Numeral, n.Regular ∧ pointed d.positional = n.text ∧ d.Writes n := by
  have hregular : (Numeral.mk (d.digits.take w) (some (d.digits.drop w)) none).Regular := by
    refine ⟨fun c hc => hdigits c (List.mem_of_mem_take hc), ?_,
      fun c hc => hdigits c (List.mem_of_mem_drop hc), Nat.succ_pos _, .inl rfl⟩
    rw [Ne, ← List.length_eq_zero_iff, List.length_take]
    omega
  have htext : d.positional =
      (Numeral.mk (d.digits.take w) (some (d.digits.drop w)) none).text := by
    rw [positional, if_neg (by omega), hpoint, Int.toNat_natCast]
    dsimp only
    rw [if_pos hlen, Nat.sub_eq_zero_of_le (Nat.le_of_lt hlen)]
    simp [Numeral.text, Text.repeated, show lit "." = [46] from by decide]
  refine ⟨_, hregular, by rw [htext, pointed_text hregular], 0, ?_, ?_⟩
  · simp
  · simp only [Option.getD_none, Option.getD_some, List.length_drop]
    omega

/-- The digits end before the point. -/
theorem positional_writes_past {d : Decimal} {w : Nat} (hdigits : Digits d.digits)
    (hpoint : d.point = w) (hw : 0 < w) (hlen : d.digits.length ≤ w) :
    ∃ n : Numeral, n.Regular ∧ pointed d.positional = n.text ∧ d.Writes n := by
  have hall : Digits (d.digits ++ List.replicate (w - d.digits.length) 0) :=
    hdigits.append (digits_replicate_zero _)
  have htext : d.positional = digitBytes (d.digits ++ List.replicate (w - d.digits.length) 0) := by
    rw [positional, if_neg (by omega), hpoint, Int.toNat_natCast]
    dsimp only
    rw [if_neg (Nat.not_lt_of_le hlen), List.append_nil, List.take_of_length_le hlen,
      ← digitBytes_replicate_zero, ← digitBytes_append]
  refine ⟨⟨d.digits ++ List.replicate (w - d.digits.length) 0, some [0], none⟩,
    ⟨hall, ?_, digits_replicate_zero 1, Nat.succ_pos _, .inl rfl⟩, ?_,
    w - d.digits.length + 1, ?_, ?_⟩
  · rw [Ne, ← List.length_eq_zero_iff, List.length_append, List.length_replicate]
    omega
  · rw [htext, pointed_digitBytes hall]
    simp [Numeral.text, digitBytes, show lit ".0" = [46, 48] from by decide]
  · rw [Option.getD_some, whole_append, whole_append, whole_replicate_zero,
      List.length_replicate, Nat.pow_succ]
    simp [whole, Nat.mul_assoc]
  · simp only [Option.getD_none, Option.getD_some, List.length_singleton]
    omega

theorem positional_writes {d : Decimal} (hdigits : Digits d.digits) :
    ∃ n : Numeral, n.Regular ∧ pointed d.positional = n.text ∧ d.Writes n := by
  by_cases hpoint : d.point ≤ 0
  · exact positional_writes_before hdigits hpoint
  · obtain ⟨w, hw⟩ := Int.eq_ofNat_of_zero_le (by omega : 0 ≤ d.point)
    rcases Nat.lt_or_ge w d.digits.length with hlen | hlen
    · exact positional_writes_among hdigits hw (by omega) hlen
    · exact positional_writes_past hdigits hw (by omega) hlen

theorem render_writes {d : Decimal} (hdigits : Digits d.digits)
    (hpoint : d.digits ≠ [] → (d.point - 1).natAbs < 10000) :
    ∃ n : Numeral, n.Regular ∧ pointed d.render = n.text ∧ (d.digits ≠ [] → d.Writes n) ∧
      (d.digits = [] → whole (n.front ++ n.behind.getD []) = 0) := by
  unfold render
  by_cases hne : d.digits = []
  · refine ⟨⟨[0], some [0], none⟩, ⟨digits_replicate_zero 1, List.cons_ne_nil _ _,
      digits_replicate_zero 1, by decide, .inl rfl⟩, ?_, fun h => absurd hne h, fun _ => rfl⟩
    rw [if_pos hne]
    decide
  · rw [if_neg hne]
    split
    · obtain ⟨n, hn, htext, hwrites⟩ := scientific_writes hdigits hne (hpoint hne)
      exact ⟨n, hn, by rw [htext, pointed_text hn], fun _ => hwrites, fun h => absurd h hne⟩
    · obtain ⟨n, hn, htext, hwrites⟩ := positional_writes hdigits
      exact ⟨n, hn, htext, fun _ => hwrites, fun h => absurd h hne⟩

end Decimal

namespace Double

open Decimal (whole neighbourhood)

/-- What is written for a finite number: its sign and a numeral in its neighbourhood. -/
theorem render_spec {x : Double} (hfinite : x.exponentField < 2047) :
    ∃ n : Number.Numeral, n.Regular ∧
      x.render = (if x.isNegative then 45 :: n.text else n.text) ∧
      Number.ofDecimal x.isNegative (whole (n.front ++ n.behind.getD []))
        (n.exponent.getD 0 - (n.behind.getD []).length) = x := by
  obtain ⟨m, hm, hdigits, ⟨t, hvalue, hpoint⟩, hsize⟩ := Decimal.shortest_spec x
  have hexponent : (Decimal.shortest x).digits ≠ [] →
      ((Decimal.shortest x).point - 1).natAbs < 10000 := by
    intro hne
    obtain ⟨k, hk, hone, hunit⟩ := exists_units
    obtain ⟨c, hc, hlt⟩ := Number.lt_of_contains hfinite hm
    rw [hone, hunit, ← Nat.mul_pow, ← Nat.pow_add] at hlt
    have hexp := (Nat.pow_lt_pow_iff_right (by decide)).1 (Nat.lt_of_le_of_lt (hsize hne) hlt)
    omega
  obtain ⟨n, hn, htext, hwrites, hzero⟩ := Decimal.render_writes hdigits hexponent
  have hread {s t : Nat} (hv : whole (n.front ++ n.behind.getD []) * 10 ^ s = m * 10 ^ t)
      (he : n.exponent.getD 0 - (n.behind.getD []).length + t + 1074 = s) :
      Number.ofDecimal x.isNegative (whole (n.front ++ n.behind.getD []))
        (n.exponent.getD 0 - (n.behind.getD []).length) = x := by
    rw [Number.ofDecimal_of_contains hfinite hm hv he, x.signed_magnitude]
  refine ⟨n, hn, ?_, ?_⟩
  · rw [render, view, if_neg (Nat.ne_of_lt hfinite), ← htext]
    rfl
  · by_cases hne : (Decimal.shortest x).digits = []
    · -- zero has no digits, and any exponent will do
      rw [hne] at hvalue
      generalize n.exponent.getD 0 - (n.behind.getD []).length = e at hread
      refine hread (s := (e + (-e).toNat + 1074).toNat) (t := (-e).toNat) ?_ (by omega)
      rw [hzero hne, hvalue]
      simp [whole]
    · obtain ⟨j, hwhole, hsame⟩ := hwrites hne
      refine hread (s := t) (t := j) ?_ (by omega)
      rw [hwhole, hvalue]
      ring

/-- The text of a finite number is read as that number. -/
theorem readFloat_render {x : Double} (hfinite : x.exponentField < 2047) :
    Number.readFloat x.render = .ok x := by
  obtain ⟨n, hn, htext, hvalue⟩ := x.render_spec hfinite
  have hinfinite : x.isInfinite = false := by
    rw [isInfinite, view, if_neg (Nat.ne_of_lt hfinite)]
  rw [htext]
  refine Number.readFloat_decimal (n.text_cons hn) (n.isNumeralByte_text hn) ?_ hinfinite
  rw [n.readDecimal_text hn, hvalue]

end Double

/-! ### Numbers as tokens -/

namespace Token

open Number (isNumeralByte isNumeralByte_spec)

theorem plain_of_isNumeralByte {text : Bytes} (hne : text ≠ [])
    (h : ∀ b ∈ text, isNumeralByte b = true) : Plain text := by
  have hglyphs := Text.glyphs_of_ascii fun b hb => (isNumeralByte_spec (h b hb)).1
  unfold Plain
  rw [hglyphs]
  constructor
  · intro g hg
    obtain ⟨b, hb, rfl⟩ := List.mem_map.1 hg
    exact (isNumeralByte_spec (h b hb)).2.1
  · cases text with
    | nil => exact absurd rfl hne
    | cons b text => exact ⟨_, rfl, (isNumeralByte_spec (h b (.head _))).2.2.1⟩

/-- Behind at most one minus, a digit tells a number from a name, and a mark a float from an
integer. -/
theorem classify_number {body : Bytes} (negative : Bool)
    (hfirst : ∃ b rest, body = b :: rest ∧ Text.isDigit b = true) :
    classify (if negative then 45 :: body else body) =
      if body.any fun b => b = 46 || b = 101 || b = 69 then .float else .int := by
  obtain ⟨b, rest, rfl, hb⟩ := hfirst
  have hsign : isSign b = false := by
    have hall : ∀ n < 256, Text.isDigit (UInt8.ofNat n) = true →
        isSign (UInt8.ofNat n) = false := by decide +kernel
    have hb' := hall b.toNat b.toNat_lt
    rw [UInt8.ofNat_toNat] at hb'
    exact hb' hb
  have hdrop : List.dropWhile isSign (if negative then 45 :: b :: rest else b :: rest) =
      b :: rest := by
    cases negative with
    | false => exact List.dropWhile_cons_of_neg (by simp [hsign])
    | true =>
      rw [if_pos rfl, List.dropWhile_cons_of_pos (by decide),
        List.dropWhile_cons_of_neg (by simp [hsign])]
  have hlength : ¬ (if negative then 45 :: b :: rest else b :: rest).length >
      (b :: rest).length + 1 := by
    split <;> simp
  unfold classify
  rw [hdrop]
  simp only [hlength, hb, decide_false, Bool.not_true, Bool.or_self, Bool.false_eq_true, if_false]

theorem writes_number {body : Bytes} (negative : Bool)
    (hfirst : ∃ b rest, body = b :: rest ∧ Text.isDigit b = true)
    (hbytes : ∀ b ∈ body, isNumeralByte b = true) :
    Writes (if negative then 45 :: body else body)
      (IsToken (if body.any fun b => b = 46 || b = 101 || b = 69 then .float else .int)
        (if negative then 45 :: body else body)) := by
  rw [← classify_number negative hfirst]
  refine writes_plain (plain_of_isNumeralByte ?_ ?_)
  · obtain ⟨b, rest, rfl, -⟩ := hfirst
    split <;> exact List.cons_ne_nil _ _
  · split
    · exact List.forall_mem_cons.2 ⟨by decide, hbytes⟩
    · exact hbytes

theorem writes_int (i : Int64) :
    Writes (Text.decimalInt i.toInt) (IsToken .int (Text.decimalInt i.toInt)) := by
  have hdigits := Decimal.digits_digitsOf i.toInt.natAbs
  have hbytes : ∀ b ∈ Text.decimal i.toInt.natAbs, isNumeralByte b = true := by
    rw [Decimal.decimal_eq]
    exact Number.isNumeralByte_of_mem_digitBytes hdigits
  have hmark : ¬ ((Text.decimal i.toInt.natAbs).any fun b => b = 46 || b = 101 || b = 69) = true := by
    rw [List.any_eq_true, Decimal.decimal_eq]
    rintro ⟨b, hb, hmark⟩
    obtain ⟨d, hd, rfl⟩ := List.mem_map.1 hb
    have hall : ∀ d < 10, ((48 + d).toUInt8 = 46 || (48 + d).toUInt8 = 101 ||
        (48 + d).toUInt8 = 69) = false := by decide
    rw [hall d (hdigits d hd)] at hmark
    cases hmark
  have htext : Text.decimalInt i.toInt = if decide (i.toInt < 0) then
      45 :: Text.decimal i.toInt.natAbs else Text.decimal i.toInt.natAbs := by
    rw [Text.decimalInt]
    by_cases hneg : i.toInt < 0
    · rw [if_pos hneg, if_pos (decide_eq_true hneg)]
      rfl
    · rw [if_neg hneg, if_neg (by simpa using hneg)]
  have hwrites := writes_number (decide (i.toInt < 0)) (Number.decimal_cons _) hbytes
  rwa [if_neg hmark, ← htext] at hwrites

theorem writes_float {x : Double} (hfinite : x.exponentField < 2047) :
    Writes x.render (IsToken .float x.render) := by
  obtain ⟨n, hn, htext, -⟩ := x.render_spec hfinite
  have hmark : (n.text.any fun b => b = 46 || b = 101 || b = 69) = true := by
    rw [List.any_eq_true]
    rcases n.mark_mem_text hn with hmem | hmem
    · exact ⟨46, hmem, by decide⟩
    · exact ⟨101, hmem, by decide⟩
  have hwrites := writes_number x.isNegative (n.text_cons hn) (n.isNumeralByte_text hn)
  rwa [if_pos hmark, ← htext] at hwrites

end Token
end StackLisp
