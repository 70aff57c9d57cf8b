import StackLisp.Text.Utf8

/-! Valid texts are made of whole characters, one after another. -/
namespace StackLisp.Text

/-- The bytes of one character. -/
inductive Encoded : Bytes → Prop where
  | one {b : UInt8} : b < 0x80 → Encoded [b]
  | two {b c lo hi : UInt8} : continuation b = some (1, lo, hi) → lo ≤ c ∧ c ≤ hi → Encoded [b, c]
  | three {b c d lo hi : UInt8} : continuation b = some (2, lo, hi) →
      lo ≤ c ∧ c ≤ hi ∧ isTail d → Encoded [b, c, d]
  | four {b c d e lo hi : UInt8} : continuation b = some (3, lo, hi) →
      lo ≤ c ∧ c ≤ hi ∧ isTail d ∧ isTail e → Encoded [b, c, d, e]

theorem not_lt_of_continuation {b lo hi : UInt8} {n : Nat}
    (h : continuation b = some (n, lo, hi)) : ¬ b < 0x80 := by
  intro hlt
  have hlow : b < 0xC2 := UInt8.lt_trans hlt (by decide)
  rw [continuation, if_pos hlow] at h
  cases h

theorem isBad_of_lt {b : UInt8} (h : b < 0x80) :
    (Glyph.mk (Char.ofNat b.toNat) [b]).isBad = false := by
  have hall : ∀ n < 128, (Char.ofNat n == replacement) = false := by decide
  have hne := hall b.toNat (UInt8.lt_iff_toNat_lt.1 h)
  simp [Glyph.isBad, hne]

/-- A character is decoded from its own bytes, whatever follows them. -/
theorem firstGlyph_encoded {b : UInt8} {tail : Bytes} (h : Encoded (b :: tail)) (rest : Bytes) :
    (firstGlyph b (tail ++ rest)).bytes = b :: tail ∧
      (firstGlyph b (tail ++ rest)).isBad = false := by
  cases h with
  | one hb =>
    unfold firstGlyph
    rw [if_pos hb]
    exact ⟨rfl, isBad_of_lt hb⟩
  | two hb hc =>
    simp [firstGlyph, not_lt_of_continuation hb, hb, hc, Glyph.isBad]
  | three hb hc =>
    simp [firstGlyph, not_lt_of_continuation hb, hb, hc, Glyph.isBad]
  | four hb hc =>
    simp [firstGlyph, not_lt_of_continuation hb, hb, hc, Glyph.isBad]

/-- A character that could be decoded has the bytes of one character. -/
theorem encoded_firstGlyph {b : UInt8} {rest : Bytes} (h : (firstGlyph b rest).isBad = false) :
    Encoded (firstGlyph b rest).bytes := by
  have hbad : (Glyph.mk replacement [b]).isBad = true := rfl
  unfold firstGlyph at h ⊢
  split at h
  · next hb =>
    rw [if_pos hb]
    exact .one hb
  · next hb =>
    rw [if_neg hb]
    split at h
    · next lo hi c _ hcont =>
      split at h
      · next hc =>
        rw [if_pos hc]
        exact .two hcont hc
      · rw [hbad] at h
        cases h
    · next lo hi c d _ hcont =>
      split at h
      · next hc =>
        rw [if_pos hc]
        exact .three hcont hc
      · rw [hbad] at h
        cases h
    · next lo hi c d e _ hcont =>
      split at h
      · next hc =>
        rw [if_pos hc]
        exact .four hcont hc
      · rw [hbad] at h
        cases h
    · rw [hbad] at h
      cases h

theorem glyphsFrom_append {front rest : Bytes} :
    glyphsFrom front.length (front ++ rest) = glyphs rest := by
  induction front with
  | nil => rfl
  | cons b front ih => exact ih

theorem isValid_append {bs : Bytes} (h : Encoded bs) (rest : Bytes) :
    isValid (bs ++ rest) = isValid rest := by
  obtain ⟨b, tail, rfl⟩ : ∃ b tail, bs = b :: tail := by cases h <;> exact ⟨_, _, rfl⟩
  obtain ⟨hbytes, hbad⟩ := firstGlyph_encoded h rest
  have hglyphs : glyphs (b :: tail ++ rest) = firstGlyph b (tail ++ rest) :: glyphs rest := by
    rw [List.cons_append, glyphs, glyphsFrom, hbytes, List.length_cons, Nat.add_sub_cancel, glyphsFrom_append]
  rw [isValid, hglyphs, List.all_cons, hbad]
  rfl

/-- Whole characters one after another make a valid text. -/
theorem isValid_flatMap {α : Type} {f : α → Bytes} {l : List α} (h : ∀ a ∈ l, Encoded (f a)) :
    isValid (l.flatMap f) = true := by
  induction l with
  | nil => rfl
  | cons a l ih =>
    obtain ⟨ha, hl⟩ := List.forall_mem_cons.1 h
    rw [List.flatMap_cons, isValid_append ha]
    exact ih hl

/-- Every character of a text is decoded from one of its bytes and those behind it. -/
theorem exists_firstGlyph {skip : Nat} {text : Bytes} {g : Glyph} (h : g ∈ glyphsFrom skip text) :
    ∃ b rest, g = firstGlyph b rest := by
  fun_induction glyphsFrom skip text with
  | case1 => cases h
  | case2 skip b rest ih => exact ih h
  | case3 b rest first ih =>
    rcases List.mem_cons.1 h with rfl | h
    · exact ⟨b, rest, rfl⟩
    · exact ih h

/-! ### Characters as they are written -/

theorem continuation_one_more {n : Nat} (h : n < 30) :
    continuation (UInt8.ofNat (n + 0xC2)) = some (1, 0x80, 0xBF) := by
  have hall : ∀ n < 30, continuation (UInt8.ofNat (n + 0xC2)) = some (1, 0x80, 0xBF) := by decide
  exact hall n h

/-- The second of three bytes is bounded so that neither a longer form than needed nor a surrogate
is a character. -/
theorem continuation_two_more {n : Nat} (h : n < 16) :
    continuation (UInt8.ofNat (n + 0xE0)) =
      some (2, if n = 0 then 0xA0 else 0x80, if n = 13 then 0x9F else 0xBF) := by
  have hall : ∀ n < 16, continuation (UInt8.ofNat (n + 0xE0)) =
      some (2, if n = 0 then 0xA0 else 0x80, if n = 13 then 0x9F else 0xBF) := by decide
  exact hall n h

theorem continuation_three_more {n : Nat} (h : n < 5) :
    continuation (UInt8.ofNat (n + 0xF0)) =
      some (3, if n = 0 then 0x90 else 0x80, if n = 4 then 0x8F else 0xBF) := by
  have hall : ∀ n < 5, continuation (UInt8.ofNat (n + 0xF0)) =
      some (3, if n = 0 then 0x90 else 0x80, if n = 4 then 0x8F else 0xBF) := by decide
  exact hall n h

theorem ofNat_le (m n : Nat) (h : m ≤ n) (hn : n < 256) : UInt8.ofNat m ≤ UInt8.ofNat n := by
  rw [UInt8.le_iff_toNat_le, UInt8.toNat_ofNat', UInt8.toNat_ofNat']
  omega

theorem isTail_ofNat (n : Nat) : isTail (UInt8.ofNat (n % 64 + 0x80)) = true := by
  have hall : ∀ n < 64, isTail (UInt8.ofNat (n + 0x80)) = true := by decide
  exact hall (n % 64) (Nat.mod_lt n (by decide))

theorem encoded_two {v : Nat} (h : 0x7f < v) (h' : v ≤ 0x7ff) :
    Encoded [UInt8.ofNat (v / 64 % 32 + 0xC0), UInt8.ofNat (v % 64 + 0x80)] := by
  have hlead : v / 64 % 32 + 0xC0 = (v / 64 - 2) + 0xC2 := by omega
  rw [hlead]
  refine .two (continuation_one_more (by omega)) ⟨?_, ?_⟩
  · exact ofNat_le 0x80 _ (by omega) (by omega)
  · exact ofNat_le _ 0xBF (by omega) (by omega)

theorem encoded_three {v : Nat} (h : 0x7ff < v) (h' : v ≤ 0xffff) (hvalid : v.isValidChar) :
    Encoded [UInt8.ofNat (v / 4096 % 16 + 0xE0), UInt8.ofNat (v / 64 % 64 + 0x80),
      UInt8.ofNat (v % 64 + 0x80)] := by
  unfold Nat.isValidChar at hvalid
  refine .three (continuation_two_more (by omega)) ⟨?_, ?_, isTail_ofNat v⟩
  · split
    · exact ofNat_le 0xA0 _ (by omega) (by omega)
    · exact ofNat_le 0x80 _ (by omega) (by omega)
  · split
    · exact ofNat_le _ 0x9F (by omega) (by omega)
    · exact ofNat_le _ 0xBF (by omega) (by omega)

theorem encoded_four {v : Nat} (h : 0xffff < v) (hvalid : v.isValidChar) :
    Encoded [UInt8.ofNat (v / 262144 % 8 + 0xF0), UInt8.ofNat (v / 4096 % 64 + 0x80),
      UInt8.ofNat (v / 64 % 64 + 0x80), UInt8.ofNat (v % 64 + 0x80)] := by
  unfold Nat.isValidChar at hvalid
  refine .four (continuation_three_more (by omega)) ⟨?_, ?_, isTail_ofNat _, isTail_ofNat v⟩
  · split
    · exact ofNat_le 0x90 _ (by omega) (by omega)
    · exact ofNat_le 0x80 _ (by omega) (by omega)
  · split
    · exact ofNat_le _ 0x8F (by omega) (by omega)
    · exact ofNat_le _ 0xBF (by omega) (by omega)

theorem encodeChar_eq (c : Char) : encodeChar c =
    let v := c.val.toNat
    if v ≤ 0x7f then [UInt8.ofNat v]
    else if v ≤ 0x7ff then [UInt8.ofNat (v / 64 % 32 + 0xC0), UInt8.ofNat (v % 64 + 0x80)]
    else if v ≤ 0xffff then
      [UInt8.ofNat (v / 4096 % 16 + 0xE0), UInt8.ofNat (v / 64 % 64 + 0x80),
        UInt8.ofNat (v % 64 + 0x80)]
    else
      [UInt8.ofNat (v / 262144 % 8 + 0xF0), UInt8.ofNat (v / 4096 % 64 + 0x80),
        UInt8.ofNat (v / 64 % 64 + 0x80), UInt8.ofNat (v % 64 + 0x80)] := rfl

theorem encoded_encodeChar (c : Char) : Encoded (encodeChar c) := by
  have hvalid : c.val.toNat.isValidChar := c.valid
  rw [encodeChar_eq]
  generalize c.val.toNat = v at hvalid
  dsimp only
  split
  · next h =>
    refine .one ?_
    rw [UInt8.lt_iff_toNat_lt, UInt8.toNat_ofNat']
    exact Nat.lt_of_le_of_lt (Nat.mod_le v _) (Nat.lt_succ_of_le h)
  · split
    · exact encoded_two (by omega) (by omega)
    · split
      · exact encoded_three (by omega) (by omega) hvalid
      · exact encoded_four (by omega) hvalid

end StackLisp.Text
