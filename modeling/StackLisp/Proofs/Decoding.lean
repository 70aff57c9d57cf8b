import Mathlib.Tactic.SplitIfs
import StackLisp.Proofs.ValidText

/-! Decoding of texts that are put together, and of characters that are written out again. A
character is decoded from its own bytes, so it depends on what follows only where its bytes are
incomplete. -/
namespace StackLisp.Text

/-! ### The first character -/

theorem firstGlyph_ascii {b : UInt8} (h : b < 0x80) (rest : Bytes) :
    firstGlyph b rest = ⟨Char.ofNat b.toNat, [b]⟩ := by
  unfold firstGlyph
  exact if_pos h

/-- The bytes of a character stand at the front of the text. -/
theorem firstGlyph_split (b : UInt8) (rest : Bytes) :
    ∃ tail left, rest = tail ++ left ∧ (firstGlyph b rest).bytes = b :: tail := by
  have bad : ∃ tail left, rest = tail ++ left ∧ (Glyph.mk replacement [b]).bytes = b :: tail :=
    ⟨[], rest, rfl, rfl⟩
  unfold firstGlyph
  split
  · exact ⟨[], rest, rfl, rfl⟩
  · split
    · next c left _ =>
      split
      · exact ⟨[c], left, rfl, rfl⟩
      · exact bad
    · next c d left _ =>
      split
      · exact ⟨[c, d], left, rfl, rfl⟩
      · exact bad
    · next c d e left _ =>
      split
      · exact ⟨[c, d, e], left, rfl, rfl⟩
      · exact bad
    · exact bad

theorem firstGlyph_append {b : UInt8} {tail : Bytes} (h : Encoded (b :: tail)) (rest : Bytes) :
    firstGlyph b (tail ++ rest) = firstGlyph b tail := by
  cases h with
  | one hb => simp [firstGlyph, hb]
  | two hb hc => simp [firstGlyph, not_lt_of_continuation hb, hb, hc]
  | three hb hc => simp [firstGlyph, not_lt_of_continuation hb, hb, hc]
  | four hb hc => simp [firstGlyph, not_lt_of_continuation hb, hb, hc]

theorem firstGlyph_of_isBad {b : UInt8} {rest : Bytes} (h : (firstGlyph b rest).isBad = true) :
    firstGlyph b rest = ⟨replacement, [b]⟩ := by
  obtain ⟨tail, left, -, hbytes⟩ := firstGlyph_split b rest
  rw [Glyph.isBad, Bool.and_eq_true, beq_iff_eq, beq_iff_eq, hbytes] at h
  obtain ⟨hchar, hlen⟩ := h
  obtain rfl : tail = [] := List.length_eq_zero_iff.1 (by simpa using hlen)
  rw [← hchar, ← hbytes]

/-- What follows a lead byte matters as far as it completes a character. -/
theorem firstGlyph_congr {b : UInt8} {rest rest' : Bytes}
    (h : ∀ tail, Encoded (b :: tail) → (tail <+: rest ↔ tail <+: rest')) :
    firstGlyph b rest = firstGlyph b rest' := by
  -- a character that is complete in one of the texts is the same in the other
  have same {r r' : Bytes} (hr : (firstGlyph b r).isBad = false)
      (hsub : ∀ tail, Encoded (b :: tail) → tail <+: r → tail <+: r') :
      firstGlyph b r = firstGlyph b r' := by
    obtain ⟨tail, left, rfl, hbytes⟩ := firstGlyph_split b r
    have hencoded := encoded_firstGlyph hr
    rw [hbytes] at hencoded
    obtain ⟨left', rfl⟩ := hsub tail hencoded (List.prefix_append tail left)
    rw [firstGlyph_append hencoded, firstGlyph_append hencoded]
  cases hr : (firstGlyph b rest).isBad with
  | false => exact same hr fun tail ht => (h tail ht).1
  | true =>
    cases hr' : (firstGlyph b rest').isBad with
    | false => exact (same hr' fun tail ht => (h tail ht).2).symm
    | true => rw [firstGlyph_of_isBad hr, firstGlyph_of_isBad hr']

/-! ### Whole texts -/

theorem glyphs_cons {b : UInt8} {tail left : Bytes}
    (h : (firstGlyph b (tail ++ left)).bytes = b :: tail) :
    glyphs (b :: (tail ++ left)) = firstGlyph b (tail ++ left) :: glyphs left := by
  rw [glyphs, glyphsFrom, h, List.length_cons, Nat.add_sub_cancel, glyphsFrom_append]

theorem glyphs_ascii {b : UInt8} (h : b < 0x80) (rest : Bytes) :
    glyphs (b :: rest) = ⟨Char.ofNat b.toNat, [b]⟩ :: glyphs rest := by
  have hcons := @glyphs_cons b [] rest (by rw [List.nil_append, firstGlyph_ascii h])
  rwa [List.nil_append, firstGlyph_ascii h] at hcons

theorem glyphs_of_ascii {text : Bytes} (h : ∀ b ∈ text, b < 0x80) :
    glyphs text = text.map fun b => ⟨Char.ofNat b.toNat, [b]⟩ := by
  induction text with
  | nil => rfl
  | cons b text ih =>
    obtain ⟨hb, htext⟩ := List.forall_mem_cons.1 h
    rw [glyphs_ascii hb, ih htext, List.map_cons]

/-- Reading a text character by character loses nothing. -/
theorem flatMap_bytes_glyphs (text : Bytes) : (glyphs text).flatMap Glyph.bytes = text := by
  induction h : text.length using Nat.strongRecOn generalizing text with
  | ind n ih =>
    cases text with
    | nil => rfl
    | cons b rest =>
      obtain ⟨tail, left, rfl, hbytes⟩ := firstGlyph_split b rest
      have hleft : left.length < n := by
        rw [← h, List.length_cons, List.length_append]
        omega
      rw [glyphs_cons hbytes, List.flatMap_cons, hbytes, ih _ hleft left rfl, List.cons_append]

/-- The text is empty or starts with a byte that belongs to no longer character. -/
def StartsFresh (text : Bytes) : Prop := ∀ b ∈ text.head?, b < 0x80

theorem not_lt_of_encoded {b c : UInt8} {tail : Bytes} (h : Encoded (b :: tail))
    (hc : c ∈ tail) : ¬ c < 0x80 := by
  have bounded {lead lo hi : UInt8} {n : Nat} (hb : continuation lead = some (n, lo, hi)) :
      ¬ lo < 0x80 := by
    unfold continuation at hb
    split_ifs at hb <;> cases hb <;> decide
  have ofTail {d : UInt8} (hd : isTail d) : ¬ d < 0x80 := by
    simp only [isTail, Bool.and_eq_true, decide_eq_true_eq] at hd
    exact UInt8.not_lt.2 hd.1
  have ofLow {lead lo hi d : UInt8} {n : Nat} (hb : continuation lead = some (n, lo, hi))
      (hd : lo ≤ d) : ¬ d < 0x80 :=
    UInt8.not_lt.2 (UInt8.le_trans (UInt8.not_lt.1 (bounded hb)) hd)
  cases h with
  | one => cases hc
  | two hb hlow =>
    obtain rfl := List.mem_singleton.1 hc
    exact ofLow hb hlow.1
  | three hb hlow =>
    simp only [List.mem_cons, List.not_mem_nil, or_false] at hc
    rcases hc with rfl | rfl
    · exact ofLow hb hlow.1
    · exact ofTail hlow.2.2
  | four hb hlow =>
    simp only [List.mem_cons, List.not_mem_nil, or_false] at hc
    rcases hc with rfl | rfl | rfl
    · exact ofLow hb hlow.1
    · exact ofTail hlow.2.2.1
    · exact ofTail hlow.2.2.2

theorem prefix_append_iff_of_startsFresh {b : UInt8} {tail front rest : Bytes}
    (h : Encoded (b :: tail)) (hrest : StartsFresh rest) :
    tail <+: front ++ rest ↔ tail <+: front := by
  constructor
  · intro hpre
    rcases List.prefix_or_prefix_of_prefix hpre (List.prefix_append front rest) with hle | ⟨more, rfl⟩
    · exact hle
    · -- the bytes of a character reach into `rest` only if it does not start afresh
      cases more with
      | nil => simp
      | cons c more =>
        obtain ⟨left, hleft⟩ := hpre
        rw [List.append_assoc, List.append_cancel_left_eq, List.cons_append] at hleft
        have hlow : c < 0x80 := hrest c (by rw [← hleft]; rfl)
        exact absurd hlow (not_lt_of_encoded h (by simp))
  · intro hpre
    exact hpre.trans (List.prefix_append front rest)

theorem glyphs_append {front rest : Bytes} (h : StartsFresh rest) :
    glyphs (front ++ rest) = glyphs front ++ glyphs rest := by
  induction hn : front.length using Nat.strongRecOn generalizing front with
  | ind n ih =>
    cases front with
    | nil => rfl
    | cons b front =>
      obtain ⟨tail, left, rfl, hbytes⟩ := firstGlyph_split b front
      have hfirst : firstGlyph b (tail ++ left ++ rest) = firstGlyph b (tail ++ left) :=
        firstGlyph_congr fun _ henc => prefix_append_iff_of_startsFresh henc h
      have hleft : left.length < n := by
        rw [← hn, List.length_cons, List.length_append]
        omega
      have hwhole : (firstGlyph b (tail ++ (left ++ rest))).bytes = b :: tail := by
        rw [← List.append_assoc, hfirst, hbytes]
      rw [glyphs_cons hbytes, List.cons_append, List.append_assoc, glyphs_cons hwhole,
        ih _ hleft rfl, ← List.append_assoc, hfirst, List.cons_append]

/-- The bytes of characters that follow each other in a text are decoded as in that text. -/
theorem glyphs_flatMap_bytes {text : Bytes} {front part rest : List Glyph}
    (h : glyphs text = front ++ part ++ rest) : glyphs (part.flatMap Glyph.bytes) = part := by
  induction front generalizing text with
  | cons g front ih =>
    cases text with
    | nil => cases h
    | cons b text =>
      obtain ⟨tail, left, rfl, hbytes⟩ := firstGlyph_split b text
      rw [glyphs_cons hbytes, List.cons_append, List.cons_append, List.cons.injEq] at h
      exact ih h.2
  | nil =>
    rw [List.nil_append] at h
    induction part generalizing text with
    | nil => rfl
    | cons g part ih =>
      cases text with
      | nil => cases h
      | cons b text =>
        obtain ⟨tail, left, rfl, hbytes⟩ := firstGlyph_split b text
        rw [glyphs_cons hbytes, List.cons_append, List.cons.injEq] at h
        obtain ⟨rfl, hleft⟩ := h
        have hpart : part.flatMap Glyph.bytes <+: left := by
          have hall := flatMap_bytes_glyphs left
          rw [hleft, List.flatMap_append] at hall
          exact ⟨_, hall⟩
        have hfirst : firstGlyph b (tail ++ part.flatMap Glyph.bytes) =
            firstGlyph b (tail ++ left) := by
          refine firstGlyph_congr fun tail' henc => ⟨fun hpre => ?_, fun ⟨more, hmore⟩ => ?_⟩
          · exact hpre.trans ((List.prefix_append_right_inj tail).2 hpart)
          · have hsame : b :: tail' = b :: tail := by
              rw [← hbytes, ← hmore]
              exact (firstGlyph_encoded henc more).1.symm
            cases hsame
            exact List.prefix_append tail _
        rw [List.flatMap_cons, hbytes, List.cons_append,
          glyphs_cons (by rw [hfirst, hbytes]), hfirst, ih hleft]

/-! ### Characters as they are written -/

theorem ofNat_toNat_eq (c : Char) {n : Nat} (h : n = c.val.toNat) : Char.ofNat n = c := by
  rw [h]
  exact Char.ofNat_toNat c

/-- A character that is written is read again. -/
theorem firstGlyph_encodeChar (c : Char) :
    ∃ b tail, encodeChar c = b :: tail ∧ firstGlyph b tail = ⟨c, b :: tail⟩ := by
  have hencoded := encoded_encodeChar c
  have hvalid : c.val.toNat.isValidChar := c.valid
  have hbound : c.val.toNat < 0x110000 := by
    unfold Nat.isValidChar at hvalid
    omega
  have hbyte {n : Nat} (h : n < 256) : (UInt8.ofNat n).toNat = n := UInt8.toNat_ofNat_of_lt' h
  rw [encodeChar_eq] at hencoded ⊢
  dsimp only at hencoded ⊢
  split_ifs at hencoded ⊢ with h₁ h₂ h₃
  · refine ⟨_, [], rfl, ?_⟩
    cases hencoded with
    | one hb =>
      unfold firstGlyph
      rw [if_pos hb, hbyte (by omega), ofNat_toNat_eq c rfl]
  · refine ⟨_, _, rfl, ?_⟩
    cases hencoded with
    | two hb hc =>
      simp only [firstGlyph, if_neg (not_lt_of_continuation hb), hb, if_pos hc]
      rw [payload, hbyte (by omega), hbyte (by omega), ofNat_toNat_eq c (by omega)]
  · refine ⟨_, _, rfl, ?_⟩
    cases hencoded with
    | three hb hc =>
      simp only [firstGlyph, if_neg (not_lt_of_continuation hb), hb, if_pos hc]
      rw [payload, payload, hbyte (by omega), hbyte (by omega), hbyte (by omega),
        ofNat_toNat_eq c (by omega)]
  · refine ⟨_, _, rfl, ?_⟩
    cases hencoded with
    | four hb hc =>
      simp only [firstGlyph, if_neg (not_lt_of_continuation hb), hb, if_pos hc]
      rw [payload, payload, payload, hbyte (by omega), hbyte (by omega), hbyte (by omega),
        hbyte (by omega), ofNat_toNat_eq c (by omega)]

theorem glyphs_encodeChar (c : Char) (rest : Bytes) :
    glyphs (encodeChar c ++ rest) = ⟨c, encodeChar c⟩ :: glyphs rest := by
  have hencoded := encoded_encodeChar c
  obtain ⟨b, tail, hbytes, hfirst⟩ := firstGlyph_encodeChar c
  rw [hbytes] at hencoded ⊢
  have hwhole : firstGlyph b (tail ++ rest) = ⟨c, b :: tail⟩ := by
    rw [firstGlyph_append hencoded, hfirst]
  rw [List.cons_append, glyphs_cons (by rw [hwhole]), hwhole]

theorem glyphs_encode (cs : List Char) :
    glyphs (encode cs) = cs.map fun c => ⟨c, encodeChar c⟩ := by
  induction cs with
  | nil => rfl
  | cons c cs ih =>
    rw [encode, List.flatMap_cons, glyphs_encodeChar, List.map_cons, ← ih]
    rfl

end StackLisp.Text
