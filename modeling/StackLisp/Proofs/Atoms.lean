import StackLisp.Proofs.Numerals

/-! What the atoms of a text hold: names and numbers keep their bytes, strings and characters are
written anew, and the number that a literal stands for is finite. -/
namespace StackLisp

namespace Token

open Text (Glyph glyphs encode encodeChar)

/-- An atom as the scanner leaves it. -/
structure Genuine (t : Token) : Prop where
  string : t.kind = .string → ∃ cs, t.literal = encode cs
  char : t.kind = .char → ∃ c, t.literal = encodeChar c
  plain : t.kind ≠ .string → t.kind ≠ .char → Plain t.literal ∧ classify t.literal = t.kind

theorem isDelimiter_of_starts {g : Glyph} (h : Starts g)
    (hsign : g.char ∉ ['(', ')', '\'', '"', '#']) : isDelimiter g.char = false := by
  simp only [List.mem_cons, List.not_mem_nil, or_false, not_or] at hsign
  simp [isDelimiter, h.1, h.2, hsign]

theorem scan_genuine (file text : Bytes) :
    ∀ t ∈ (scan file text).list, t.IsAtom → t.Genuine := by
  refine scanFrom_all fun {g gs _ t _ _} hahead hstarts ht hatom => ?_
  obtain ⟨front, hfront⟩ := hahead.suffix
  rcases (scanToken_cases ht).2.2.2 with ⟨hsingle, -⟩ | ⟨hstring, cs, hliteral, -⟩ |
      ⟨hchar, hliteral⟩ | ⟨hkind, hsign, taken, rfl, hliteral, htaken⟩
  · obtain ⟨hopening, hquote, hclosing⟩ := hatom
    simp [hopening, hquote, hclosing] at hsingle
  · refine ⟨fun _ => ⟨cs, hliteral⟩, fun h => ?_, fun h => absurd hstring h⟩
    rw [hstring] at h
    cases h
  · refine ⟨fun h => ?_, fun _ => hliteral, fun _ h => absurd hchar h⟩
    rw [hchar] at h
    cases h
  · have hglyphs : glyphs t.literal = g :: taken := by
      rw [hliteral]
      exact Text.glyphs_flatMap_bytes (hfront.symm.trans (List.append_assoc _ (g :: taken) _).symm)
    have hplain : Plain t.literal := by
      unfold Plain
      rw [hglyphs]
      refine ⟨List.forall_mem_cons.2 ⟨isDelimiter_of_starts hstarts hsign, htaken⟩, g, rfl, ?_⟩
      rintro hhash
      exact hsign (by simp [hhash])
    refine ⟨fun h => ?_, fun h => ?_, fun _ _ => ⟨hplain, hkind.symm⟩⟩
    · rcases classify_cases t.literal with hc | hc | hc <;> cases hc.symm.trans (hkind.symm.trans h)
    · rcases classify_cases t.literal with hc | hc | hc <;> cases hc.symm.trans (hkind.symm.trans h)

end Token

/-! ### Literals of floats -/

namespace Double

/-- The number is not the result of an undefined operation. -/
def Ordered (x : Double) : Prop := x.exponentField < 2047 ∨ x.isInfinite = true

theorem ordered_infinity (negative : Bool) : (infinity negative).Ordered := by
  cases negative <;> exact .inr (by decide)

theorem ordered_signed {m : Nat} (h : m < 2047 * leadingBit) (negative : Bool) :
    (signed negative m.toUInt64).Ordered := by
  have hm : m < 2 ^ 63 := by
    unfold leadingBit at h
    omega
  have hword : m.toUInt64.toNat = m := Nat.mod_eq_of_lt (by omega)
  have hbits : (signed negative m.toUInt64).bits.toNat % 2 ^ 63 = m := by
    cases negative with
    | false =>
      rw [signed, if_neg Bool.false_ne_true, hword]
      omega
    | true =>
      have hor := Nat.two_pow_add_eq_or_of_lt hm 1
      rw [Nat.mul_one] at hor
      rw [signed, if_pos rfl, UInt64.toNat_or, hword, signBit_toNat, ← hor]
      omega
  refine .inl ?_
  unfold exponentField
  unfold leadingBit at h ⊢
  omega

theorem ordered_ofRatio (negative : Bool) (n d : Nat) : (ofRatio negative n d).Ordered := by
  unfold ofRatio
  split
  · exact ordered_signed (m := 0) (by decide) negative
  · dsimp only
    split
    · next hm => exact ordered_signed hm negative
    · exact ordered_infinity negative

end Double

namespace Number

theorem ordered_ofDecimal (negative : Bool) (v : Nat) (e : Int) :
    (ofDecimal negative v e).Ordered := by
  unfold ofDecimal
  dsimp only
  split_ifs
  · exact Double.ordered_signed (m := 0) (by decide) negative
  · exact Double.ordered_infinity negative
  · exact Double.ordered_signed (m := 0) (by decide) negative
  · exact Double.ordered_ofRatio ..
  · exact Double.ordered_ofRatio ..

theorem ordered_ofBinary (negative : Bool) (v : Nat) (e : Int) :
    (ofBinary negative v e).Ordered := by
  unfold ofBinary
  dsimp only
  split_ifs
  · exact Double.ordered_signed (m := 0) (by decide) negative
  · exact Double.ordered_infinity negative
  · exact Double.ordered_signed (m := 0) (by decide) negative
  · exact Double.ordered_ofRatio ..
  · exact Double.ordered_ofRatio ..

theorem ordered_readDecimal {negative : Bool} {body : Bytes} {x : Double}
    (h : readDecimal negative body = some x) : x.Ordered := by
  unfold readDecimal at h
  dsimp only at h
  split at h
  · cases h
    exact ordered_ofDecimal ..
  · cases h

theorem ordered_readHexadecimal {negative : Bool} {body : Bytes} {x : Double}
    (h : readHexadecimal negative body = some x) : x.Ordered := by
  unfold readHexadecimal at h
  dsimp only at h
  split at h
  · cases h
    exact ordered_ofBinary ..
  · cases h

theorem ordered_readDigits {negative : Bool} {body : Bytes} {x : Double}
    (h : readDigits negative body = some x) : x.Ordered := by
  unfold readDigits at h
  split at h
  · split at h
    · exact ordered_readHexadecimal h
    · exact ordered_readDecimal h
  · exact ordered_readDecimal h

/-- A number has at most one sign, and behind it a digit. -/
theorem cons_of_classify {text : Bytes} (h : Token.classify text ≠ .ident) :
    ∃ d rest, Text.isDigit d = true ∧ (text = d :: rest ∨ text = 43 :: d :: rest ∨
      text = 45 :: d :: rest) := by
  have hsplit := List.takeWhile_append_dropWhile (p := Token.isSign) (l := text)
  unfold Token.classify at h
  dsimp only at h
  split at h
  · exact absurd rfl h
  · next d rest hdrop =>
    rw [hdrop] at hsplit h
    by_cases hfirst : (decide (text.length > (d :: rest).length + 1) || !Text.isDigit d) = true
    · rw [if_pos hfirst] at h
      exact absurd rfl h
    · rw [Bool.or_eq_true, not_or] at hfirst
      refine ⟨d, rest, by simpa using hfirst.2, ?_⟩
      have hlength : (text.takeWhile Token.isSign).length ≤ 1 := by
        have htext := congrArg List.length hsplit
        rw [List.length_append] at htext
        have hle := hfirst.1
        rw [decide_eq_true_eq] at hle
        omega
      cases hsigns : text.takeWhile Token.isSign with
      | nil =>
        rw [hsigns] at hsplit
        exact .inl hsplit.symm
      | cons b more =>
        have hb : Token.isSign b = true := by
          have hall := List.all_takeWhile (p := Token.isSign) (l := text)
          rw [hsigns, List.all_cons, Bool.and_eq_true] at hall
          exact hall.1
        rw [hsigns, List.length_cons] at hlength
        obtain rfl := List.length_eq_zero_iff.1 (Nat.le_zero.1 (Nat.le_of_succ_le_succ hlength))
        rw [hsigns] at hsplit
        simp only [Token.isSign, Bool.or_eq_true, decide_eq_true_eq] at hb
        rcases hb with rfl | rfl
        · exact .inr (.inl hsplit.symm)
        · exact .inr (.inr hsplit.symm)

theorem readWordFloat_of_classify {text : Bytes} (h : Token.classify text ≠ .ident) :
    readWordFloat text = none := by
  obtain ⟨d, rest, hd, htext⟩ := cons_of_classify h
  have hdigit : isNumeralByte d = true := by
    rw [isNumeralByte, hd]
    rfl
  have hlower := (isNumeralByte_spec hdigit).2.2.2.2
  simp only [List.mem_cons, List.not_mem_nil, or_false, not_or] at hlower
  have hwords : Text.lit "inf" = [105, 110, 102] ∧
      Text.lit "infinity" = [105, 110, 102, 105, 110, 105, 116, 121] ∧
      Text.lit "nan" = [110, 97, 110] := by decide
  have hsigns : lowerAscii 43 = 43 ∧ lowerAscii 45 = 45 := by decide
  have hsplit : (splitSign text).2 = d :: rest := by
    rcases htext with rfl | rfl | rfl
    · rw [splitSign_of_isDigit hd]
    · rfl
    · rfl
  unfold readWordFloat
  dsimp only
  rw [hsplit, hwords.1, hwords.2.1, hwords.2.2, if_neg, if_neg]
  · rcases htext with rfl | rfl | rfl <;> simp [hlower, hsigns]
  · simp [hlower]

/-- The number that a literal stands for is neither infinite nor the result of an undefined
operation. -/
theorem finite_of_readFloat {text : Bytes} {x : Double} (hkind : Token.classify text = .float)
    (h : readFloat text = .ok x) : x.exponentField < 2047 := by
  unfold readFloat at h
  rw [readWordFloat_of_classify (by rw [hkind]; decide)] at h
  dsimp only at h
  split at h
  · cases h
  · next y hy =>
    split at h
    · cases h
    · split at h
      · cases h
      · next hfinite =>
        cases h
        exact (ordered_readDigits hy).resolve_right hfinite

end Number
end StackLisp
